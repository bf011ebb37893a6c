import Taomni.Sockscap.SniffingStable

/-!
# Reading until there is a name

Reference: `peek_for_hostname` of `src-tauri/src/sockscap/relay/sniffing.rs`.

A run is the list of what its reads return. For a hello that is whole in its first record the answer is
the one for all bytes read (`peekLoop_hello`); for a request it is what these bytes have of the name
exactly if the run `Finds` it (`Request.peekLoop_iff`).
-/

namespace Taomni.Sockscap

open List
open Agent (Text)
open Encoding (fromUtf8)
open Option (bind_some isSome_none map_some some_ne_none)

/-! ## A hello in one record -/

/-- A first record with the whole hello in it, up to the end of its extensions. -/
structure Hello where
  record : Bytes
  recLen : ℕ
  place : ℕ × ℕ
  first_eq : record[0]? = some 0x16
  recLen_eq : u16At record 3 = some recLen
  length_eq : record.length = 5 + recLen
  place_eq : extensionsAt (record.drop 5) = some (some place)
  within : place.1 + place.2 ≤ recLen

theorem u16At_append_left {bytes : Bytes} {i : ℕ} (h : i + 2 ≤ bytes.length) (more : Bytes) :
    u16At (bytes ++ more) i = u16At bytes i := by
  obtain ⟨n, hn⟩ := exists_u16At h
  rw [hn, u16At_append hn]

/-- The extensions are read up to their end only. -/
theorem extensions_append_eq {hs : Bytes} {extEnd i : ℕ} (hend : extEnd ≤ hs.length) (more : Bytes) :
    extensions (hs ++ more) extEnd i = extensions hs extEnd i := by
  induction hrest : extEnd - i using Nat.strong_induction_on generalizing i with
  | _ rest ih =>
    rw [extensions, extensions]
    split
    · next hle =>
      rw [u16At_append_left (by omega), u16At_append_left (by omega)]
      refine Option.bind_congr fun extType _ => Option.bind_congr fun extLen _ => ?_
      split
      · rfl
      · next hfits =>
        split
        · obtain ⟨piece, hpiece, -⟩ := @exists_sliceAt hs (i + 4) (i + 4 + extLen) (by omega)
          rw [hpiece, sliceAt_append hpiece]
        · exact ih (extEnd - (i + 4 + extLen)) (by omega) rfl
    · rfl

/-- What follows the record does not matter. -/
theorem Hello.extractSni_more (hello : Hello) (more : Bytes) :
    extractSni (hello.record ++ more) = extractSni hello.record := by
  obtain ⟨record, recLen, ⟨i, extTotal⟩, hfirst, hrec, hlength, hplace, hwithin⟩ := hello
  dsimp only at hwithin ⊢
  have hdrop : (record ++ more).drop 5 = record.drop 5 ++ more :=
    drop_append_of_le_length (by omega)
  have hlong := @length_append _ record more
  have hshort : (record.drop 5).length = recLen := by
    rw [length_drop]
    omega
  have hend : min (i + extTotal) (record.drop 5).length = i + extTotal :=
    Nat.min_eq_left (by omega)
  have hend' : min (i + extTotal) (record.drop 5 ++ more).length = i + extTotal :=
    Nat.min_eq_left (by rw [length_append]; omega)
  have hwhole : ¬ (record.length < 5 + recLen ∧ record.length < 9) := by omega
  have hwhole' : ¬ ((record ++ more).length < 5 + recLen ∧ (record ++ more).length < 9) := by omega
  have hsame := @extensions_append_eq (record.drop 5) (i + extTotal) i (by omega) more
  rw [extractSni, extractSni, if_neg (by omega), if_neg (by omega), getElem?_append_of_some hfirst,
    hfirst, u16At_append hrec, hrec, hdrop, extensionsAt_append hplace, hplace]
  simp only [bind_some, hend, hend', hsame, if_neg hwhole, if_neg hwhole']

/-! ## Reading -/

/-- What is read at every place where the loop may read more. -/
def AtReads (ok : Bytes → Prop) : Bytes → List Bytes → Prop
  | _, [] => True
  | data, bytes :: rest => ok data ∧ AtReads ok (data ++ bytes) rest

namespace Hello

variable (hello : Hello) {data rest : Bytes}

/-- A stream that begins with a record is read as one. -/
theorem extract_eq (h : data <+: hello.record ++ rest) :
    extractHostnameFromPrefix data = extractSni data := by
  cases data with
  | nil => rfl
  | cons b data =>
    refine extract_of_record ?_
    have hfirst := hello.first_eq
    cases hrecord : hello.record with
    | nil =>
      rw [hrecord] at hfirst
      cases hfirst
    | cons b' record =>
      rw [hrecord, cons_append] at h
      rw [hrecord] at hfirst
      rw [(cons_prefix_cons.mp h).1]
      exact hfirst

/-- Nobody gives up in the record. -/
theorem not_givesUp (h : data <+: hello.record ++ rest) (hshort : data.length < hello.record.length) :
    givesUp data = false := by
  have hpre : data <+: hello.record :=
    prefix_of_prefix_length_le h (prefix_append _ _) (Nat.le_of_lt hshort)
  obtain ⟨more, hmore⟩ := hpre
  have hlength := hello.length_eq
  rw [givesUp]
  split
  · next hlong =>
    have hrec := u16At_append_left (show 3 + 2 ≤ data.length from hlong.1) more
    rw [hmore, hello.recLen_eq] at hrec
    rw [← hrec, map_some, Option.getD_some, decide_eq_false_iff_not]
    omega
  · next hlong =>
    have hfew : data.length < 32 := by
      by_contra hmany
      refine hlong ⟨by omega, ?_⟩
      rw [← hello.first_eq, ← hmore, getElem?_append_left (by omega)]
    rw [decide_eq_false (Nat.not_le.mpr hfew), Bool.false_and]

/-- The answer is the one for all bytes that are read. -/
theorem peekLoop_eq {reads : List Bytes} (h : data ++ reads.flatten <+: hello.record ++ rest)
    (hreads : ∀ bytes ∈ reads, bytes ≠ [])
    (hbound : AtReads (fun read => read.length < 16 * 1024 ∨ hello.record.length ≤ read.length)
      data reads) : (peekLoop data reads).map Prod.snd = extractSni (data ++ reads.flatten) := by
  induction reads generalizing data with
  | nil =>
    rw [flatten_nil, append_nil] at h ⊢
    rw [peekLoop, hello.extract_eq h, Option.map_map]
    exact Option.map_id'
  | cons bytes reads ih =>
    obtain ⟨hbytes, hreads⟩ := forall_mem_cons.mp hreads
    obtain ⟨hok, hbound⟩ := hbound
    have hdata := (prefix_append _ _).trans h
    obtain ⟨host?, hsni⟩ := exists_extractSni data
    rw [peekLoop, hello.extract_eq hdata, hsni, bind_some]
    by_cases hstop : stopsReading data host? = true
    · rw [if_pos (.inl hstop), map_some]
      cases host? with
      | some host => rw [extractSni_append hsni]
      | none =>
        have hwhole : hello.record.length ≤ data.length := by
          by_contra hshort
          have hgive := hello.not_givesUp hdata (Nat.not_le.mp hshort)
          rw [stopsReading, hgive, Bool.or_false, isSome_none, Bool.or_false,
            decide_eq_true_eq] at hstop
          omega
        obtain ⟨more, rfl⟩ : hello.record <+: data :=
          prefix_of_prefix_length_le (prefix_append _ _) hdata hwhole
        rw [← hsni, hello.extractSni_more, append_assoc, hello.extractSni_more]
    · rw [if_neg (not_or.mpr ⟨hstop, hbytes⟩)]
      rw [flatten_cons, ← append_assoc] at h ⊢
      exact ih h hreads hbound

end Hello

/-! ## A request -/

namespace Request

variable {r : Request} {data all : Bytes}

/-- The runs that answer with what there is of the name in all bytes: they stop with all of it, or have
nothing of it and there is nothing, or read on with nothing of it yet. -/
inductive Finds (r : Request) (all : Bytes) : Bytes → List Bytes → Prop
  | found {data reads} (text : fromUtf8 data ≠ none) (whole : ¬ CutsKeyword data)
      (named : ¬ AllDots (r.cutName data.length))
      (rest : AllDots (slice r.host.name (data.length - r.nameStart) (all.length - r.nameStart))) :
      Finds r all data reads
  | nothing {data reads} (whole : ¬ CutsKeyword data)
      (unnamed : fromUtf8 data = none ∨ AllDots (r.cutName data.length))
      (last : reads = [] ∨ 16 * 1024 ≤ data.length ∨ givesUp data = true)
      (none : AllDots (r.cutName all.length)) : Finds r all data reads
  | waits {data bytes reads} (whole : ¬ CutsKeyword data)
      (unnamed : fromUtf8 data = none ∨ AllDots (r.cutName data.length))
      (short : data.length < 16 * 1024) (hopes : givesUp data = false)
      (next : Finds r all (data ++ bytes) reads) : Finds r all data (bytes :: reads)

/-- Without anything of the name the extraction finds nothing. -/
theorem extract_of_unnamed (h : data <+: r.bytes) (hwhole : ¬ CutsKeyword data)
    (hunnamed : fromUtf8 data = none ∨ AllDots (r.cutName data.length)) :
    extractHostnameFromPrefix data = some none := by
  by_cases htext : fromUtf8 data = none
  · exact extract_of_no_text h htext
  · rw [extract_of_text h htext (mt extract_eq_none_iff.mp hwhole),
      namedHost_cutName.mpr (hunnamed.resolve_left htext)]

/-- The loop where the extraction panics. -/
theorem peekLoop_of_none (h : extractHostnameFromPrefix data = none) (reads : List Bytes) :
    peekLoop data reads = none := by
  cases reads <;> rw [peekLoop, h] <;> rfl

/-- The loop where the extraction finds a name. -/
theorem peekLoop_of_some {host : Text} (h : extractHostnameFromPrefix data = some (some host))
    (reads : List Bytes) : peekLoop data reads = some (data, some host) := by
  cases reads with
  | nil => rw [peekLoop, h, map_some]
  | cons bytes reads =>
    have hstop : stopsReading data (some host) = true := by
      rw [stopsReading, Option.isSome_some, Bool.or_true, Bool.true_or]
    rw [peekLoop, h, bind_some, if_pos (.inl hstop)]

theorem stopsReading_none : stopsReading data none = true
    ↔ 16 * 1024 ≤ data.length ∨ givesUp data = true := by
  rw [stopsReading, isSome_none, Bool.or_false, Bool.or_eq_true, decide_eq_true_eq]

/-- A beginning with some of the name decides the answer. -/
theorem finds_of_named {reads : List Bytes} (hall : data <+: all) (h : all <+: r.bytes)
    (hwhole : ¬ CutsKeyword data) (htext : fromUtf8 data ≠ none)
    (hnamed : ¬ AllDots (r.cutName data.length)) :
    (peekLoop data reads).map Prod.snd = some (namedHost (r.cutName all.length))
      ↔ r.Finds all data reads := by
  have hextract := extract_of_text (hall.trans h) htext (mt extract_eq_none_iff.mp hwhole)
  obtain ⟨host, hhost⟩ := Option.ne_none_iff_exists'.mp (mt namedHost_cutName.mp hnamed)
  rw [hhost] at hextract
  have hlength := hall.length_le
  have hcut : r.cutName all.length = r.cutName data.length
      ++ slice r.host.name (data.length - r.nameStart) (all.length - r.nameStart) :=
    cutName_eq hlength
  have hsame := namedHost_append_eq_iff r.host.name_graphic (hcut ▸ isPrefix_cutName _) hnamed
  rw [peekLoop_of_some hextract, map_some, Option.some.injEq, ← hhost, hcut, eq_comm, hsame]
  constructor
  · exact .found htext hwhole hnamed
  · rintro (⟨-, -, -, hdots⟩ | ⟨-, hunnamed, -, -⟩ | ⟨-, hunnamed, -, -, -⟩)
    · exact hdots
    · exact absurd hunnamed (not_or.mpr ⟨htext, hnamed⟩)
    · exact absurd hunnamed (not_or.mpr ⟨htext, hnamed⟩)

/-- A run answers with what there is of the name in all bytes exactly if it finds it. -/
theorem peekLoop_iff {reads : List Bytes} (hreads : ∀ bytes ∈ reads, bytes ≠ [])
    (hall : data ++ reads.flatten = all) (h : all <+: r.bytes) :
    (peekLoop data reads).map Prod.snd = some (namedHost (r.cutName all.length))
      ↔ r.Finds all data reads := by
  induction reads generalizing data with
  | nil =>
    rw [flatten_nil, append_nil] at hall
    by_cases hwhole : CutsKeyword data
    · rw [peekLoop_of_none (extract_eq_none_iff.mpr hwhole)]
      refine iff_of_false nofun ?_
      rintro (⟨-, hno, -, -⟩ | ⟨hno, -, -, -⟩) <;> exact hno hwhole
    by_cases hunnamed : fromUtf8 data = none ∨ AllDots (r.cutName data.length)
    · rw [peekLoop, extract_of_unnamed (hall ▸ h) hwhole hunnamed, map_some, map_some,
        Option.some.injEq, eq_comm, namedHost_cutName]
      constructor
      · exact .nothing hwhole hunnamed (.inl rfl)
      · rintro (⟨htext, -, hnamed, -⟩ | ⟨-, -, -, hnone⟩)
        · exact absurd hunnamed (not_or.mpr ⟨htext, hnamed⟩)
        · exact hnone
    · obtain ⟨htext, hnamed⟩ := not_or.mp hunnamed
      exact finds_of_named (hall ▸ prefix_rfl) h hwhole htext hnamed
  | cons bytes reads ih =>
    obtain ⟨hbytes, hreads⟩ := forall_mem_cons.mp hreads
    have hdata : data <+: all := hall ▸ prefix_append _ _
    by_cases hwhole : CutsKeyword data
    · rw [peekLoop_of_none (extract_eq_none_iff.mpr hwhole)]
      refine iff_of_false nofun ?_
      rintro (⟨-, hno, -, -⟩ | ⟨hno, -, -, -⟩ | ⟨hno, -, -, -, -⟩) <;> exact hno hwhole
    by_cases hunnamed : fromUtf8 data = none ∨ AllDots (r.cutName data.length)
    · rw [peekLoop, extract_of_unnamed (hdata.trans h) hwhole hunnamed, bind_some]
      rw [flatten_cons, ← append_assoc] at hall
      by_cases hstop : stopsReading data none = true
      · rw [if_pos (.inl hstop), map_some, Option.some.injEq, eq_comm, namedHost_cutName]
        constructor
        · exact .nothing hwhole hunnamed (.inr (stopsReading_none.mp hstop))
        · rintro (⟨htext, -, hnamed, -⟩ | ⟨-, -, -, hnone⟩ | ⟨-, -, hshort, hhopes, -⟩)
          · exact absurd hunnamed (not_or.mpr ⟨htext, hnamed⟩)
          · exact hnone
          · rcases stopsReading_none.mp hstop with hlong | hgive
            · exact absurd hlong (Nat.not_le.mpr hshort)
            · rw [hhopes] at hgive
              cases hgive
      · obtain ⟨hshort, hhopes⟩ := not_or.mp (mt stopsReading_none.mpr hstop)
        rw [if_neg (not_or.mpr ⟨hstop, hbytes⟩), ih hreads hall]
        constructor
        · exact .waits hwhole hunnamed (Nat.not_le.mp hshort) (Bool.eq_false_iff.mpr hhopes)
        · rintro (⟨htext, -, hnamed, -⟩ | ⟨-, -, hlast, -⟩ | ⟨-, -, -, -, hnext⟩)
          · exact absurd hunnamed (not_or.mpr ⟨htext, hnamed⟩)
          · rcases hlast with hnil | hlong | hgive
            · cases hnil
            · exact absurd hlong hshort
            · exact absurd hgive hhopes
          · exact hnext
    · obtain ⟨htext, hnamed⟩ := not_or.mp hunnamed
      exact finds_of_named hdata h hwhole htext hnamed

end Request

/-! ## Sniffing -/

/-- Sniffing panics exactly at a line that cuts a character. The name of a hello is final; the one of a
request is as long as the stream is a text and the name does not go on. How the bytes are split into reads
does not matter for a hello in one record, and for a request only to runs that do not find its name. -/
theorem sniffing_iff (data : Bytes) {port : ℕ} (hport : serverSpeaksFirst port = false)
    {reads : List Bytes} (hreads : ∀ bytes ∈ reads, bytes ≠ []) :
    (extractHostnameFromPrefix data ≠ none ↔ ¬ CutsKeyword data) ∧
    (∀ host, data[0]? = some 0x16 → extractHostnameFromPrefix data = some (some host) →
      ∀ more, extractHostnameFromPrefix (data ++ more) = some (some host)) ∧
    (∀ (r : Request) (q : Bytes) (host : Text), data <+: q → q <+: r.bytes →
      extractHostnameFromPrefix data = some (some host) →
      (extractHostnameFromPrefix q = some (some host) ↔ fromUtf8 q ≠ none ∧
        AllDots (slice r.host.name (data.length - r.nameStart) (q.length - r.nameStart)))) ∧
    (∀ (hello : Hello) (rest : Bytes), reads.flatten <+: hello.record ++ rest →
      AtReads (fun read => read.length < 16 * 1024 ∨ hello.record.length ≤ read.length) [] reads →
      (peekForHostname port reads).map Prod.snd = extractHostnameFromPrefix reads.flatten) ∧
    ∀ r : Request, reads.flatten <+: r.bytes → ((peekForHostname port reads).map Prod.snd
          = some (namedHost (r.cutName reads.flatten.length)) ↔ r.Finds reads.flatten [] reads) := by
  refine ⟨not_congr extract_eq_none_iff, ?_, ?_, ?_, ?_⟩
  · intro host hfirst hhost more
    rw [extract_of_record hfirst] at hhost
    rw [extract_of_record (getElem?_append_of_some hfirst more)]
    exact extractSni_append hhost more
  · exact fun r q host hpq hq hhost => Request.extract_stable hpq hq hhost
  · intro hello rest h hbound
    rw [peekForHostname, hport, if_neg Bool.false_ne_true, hello.extract_eq h]
    exact hello.peekLoop_eq h hreads hbound
  · intro r h
    rw [peekForHostname, hport, if_neg Bool.false_ne_true]
    exact Request.peekLoop_iff hreads rfl h

/-- A request for `/` of `example.com`. -/
def exampleRequest : Request where
  method := "GET".toList
  target := "/".toList
  version := "1.1".toList
  fields := []
  host :=
    { keyword := "Host:".toList
      padding := [' ']
      bracketed := false
      name := "example.com".toList
      port := []
      trailing := []
      keyword_eq := by decide
      padding_blank := by simp
      name_graphic := by simp
      name_bracketed := by decide
      name_plain := by decide
      name_named := ⟨'e', by decide, by decide⟩
      port_eq := .inl rfl
      trailing_blank := by simp }
  rest := [13, 10]
  method_ne := by decide
  method_token := by simp
  target_unbroken := by simp [Unbroken]
  version_unbroken := by simp [Unbroken]
  fields_line := by simp

theorem extract_of_text_eq {text : Text} {host : Option (Option Text)}
    (hlong : 16 ≤ byteLength text) (hfirst : (encodeText text)[0]? ≠ some 0x16)
    (hhttp : looksLikeHttp text = true) (hhost : hostInLines (splitLines text) = host) :
    extractHostnameFromPrefix (encodeText text) = host := by
  rw [← hhost]
  exact extract_of_reads ⟨by rwa [length_encodeText], hfirst, rfl, hhttp⟩

theorem bytes_exampleRequest : exampleRequest.bytes
    = encodeText "GET / HTTP/1.1\r\nHost: example.com\r\n\r\n".toList := by
  decide

theorem extract_exampleRequest :
    extractHostnameFromPrefix exampleRequest.bytes = some (some "example.com".toList) := by
  rw [bytes_exampleRequest]
  exact extract_of_text_eq (by decide) (by decide) (by decide) (by decide)

/-- The first read. -/
theorem peekForHostname_http {bytes : Bytes} (h : bytes ≠ []) (reads : List Bytes) :
    peekForHostname 80 (bytes :: reads) = peekLoop bytes reads := by
  have hempty : extractHostnameFromPrefix [] = some none := rfl
  rw [peekForHostname, if_neg (by decide), peekLoop, hempty, bind_some,
    if_neg (not_or.mpr ⟨by decide, h⟩), nil_append]

theorem sniffing_iff_example :
    (peekForHostname 80 [exampleRequest.bytes]).map Prod.snd = some (some "example.com".toList) := by
  have hempty : ¬ CutsKeyword [] := by
    rw [← extract_eq_none_iff]
    exact some_ne_none _
  have hwhole : ¬ CutsKeyword exampleRequest.bytes := by
    rw [← extract_eq_none_iff, extract_exampleRequest]
    exact some_ne_none _
  have htext : fromUtf8 exampleRequest.bytes ≠ none := by
    rw [bytes_exampleRequest, fromUtf8_encodeText]
    exact some_ne_none _
  have hfinds : exampleRequest.Finds [exampleRequest.bytes].flatten [] [exampleRequest.bytes] :=
    .waits hempty (.inr (by decide)) (by decide) (by decide)
      (.found htext hwhole (by decide) (by decide))
  have hreads : ∀ bytes ∈ [exampleRequest.bytes], bytes ≠ [] := fun bytes hbytes => by
    rw [mem_singleton.mp hbytes]
    decide
  exact ((sniffing_iff [] (by decide) hreads).2.2.2.2 exampleRequest
    (by rw [flatten_cons, flatten_nil, append_nil])).mpr hfinds

/-- A field whose fifth byte is inside of a character, and a name cut in the middle. -/
theorem sniffing_panics_and_cuts :
    extractHostnameFromPrefix (encodeText "GET / HTTP/1.1\r\nabcdé: x".toList) = none ∧
    encodeText "GET / HTTP/1.1\r\nHost: exam".toList <+: exampleRequest.bytes ∧
    extractHostnameFromPrefix (encodeText "GET / HTTP/1.1\r\nHost: exam".toList)
      = some (some "exam".toList) ∧
    extractHostnameFromPrefix exampleRequest.bytes = some (some "example.com".toList) ∧
    (peekForHostname 80 [exampleRequest.bytes]).map Prod.snd = some (some "example.com".toList) ∧
    (peekForHostname 80 [encodeText "GET / HTTP/1.1\r\nHost: exam".toList,
      encodeText "ple.com\r\n\r\n".toList]).map Prod.snd = some (some "exam".toList) := by
  have hcut : extractHostnameFromPrefix (encodeText "GET / HTTP/1.1\r\nHost: exam".toList)
      = some (some "exam".toList) :=
    extract_of_text_eq (by decide) (by decide) (by decide) (by decide)
  refine ⟨extract_of_text_eq (by decide) (by decide) (by decide) (by decide), ?_, hcut,
    extract_exampleRequest, ?_, ?_⟩
  · rw [bytes_exampleRequest]
    exact ⟨encodeText "ple.com\r\n\r\n".toList, by decide⟩
  · rw [peekForHostname_http (by decide), Request.peekLoop_of_some extract_exampleRequest]
    rfl
  · rw [peekForHostname_http (by decide), Request.peekLoop_of_some hcut]
    rfl

end Taomni.Sockscap
