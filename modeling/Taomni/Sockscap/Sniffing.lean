import Taomni.Common.Splice
import Taomni.Common.Utf8
import Taomni.Encoding.RoundTrip
import Taomni.Sockscap.AutoProxy

/-!
# Host names in the first bytes of a connection

Reference: `src-tauri/src/sockscap/rules/sni.rs` and `src-tauri/src/sockscap/relay/sniffing.rs`.

Every index and every slice of the source is an access that may fail, and a failed one is a panic: the
outer `none` of a result. The inner option is the one of the source.
-/

namespace Taomni.Sockscap

open List
open Agent (Text trim containsText)
open Encoding (fromUtf8)
open Option (bind_eq_some_iff bind_some)

/-- A byte string. -/
abbrev Bytes := List UInt8

/-! ## Reading bytes -/

/-- `u16::from_be_bytes([bytes[i], bytes[i + 1]])`. -/
def u16At (bytes : Bytes) (i : ℕ) : Option ℕ :=
  bytes[i]?.bind fun high => bytes[i + 1]?.map fun low => high.toNat * 256 + low.toNat

/-- `&bytes[start..stop]`. -/
def sliceAt (bytes : Bytes) (start stop : ℕ) : Option Bytes :=
  if stop ≤ bytes.length then some (slice bytes start stop) else none

/-- `name.trim().trim_end_matches('.').to_ascii_lowercase()`, unless nothing is left. -/
def namedHost (name : Text) : Option Text :=
  let host := toAsciiLowercase (trimEnd '.' (trim name))
  if host = [] then none else some host

/-! ## TLS -/

/-- The loop of `parse_sni_extension`. -/
def serverNames (ext : Bytes) (stop i : ℕ) : Option (Option Text) :=
  if i + 3 ≤ stop then
    ext[i]?.bind fun nameType => (u16At ext (i + 1)).bind fun nameLen =>
      if stop < i + 3 + nameLen then some none
      else if nameType = 0 then
        (sliceAt ext (i + 3) (i + 3 + nameLen)).bind fun bytes =>
          match fromUtf8 bytes with
          | none => some none
          | some name =>
              match namedHost name.toList with
              | some host => some (some host)
              | none => serverNames ext stop (i + 3 + nameLen)
      else serverNames ext stop (i + 3 + nameLen)
  else some none
termination_by stop - i

def parseSniExtension (ext : Bytes) : Option (Option Text) :=
  if ext.length < 2 then some none
  else (u16At ext 0).bind fun listLen => serverNames ext (min (2 + listLen) ext.length) 2

/-- The loop over the extensions of a hello. -/
def extensions (hs : Bytes) (extEnd i : ℕ) : Option (Option Text) :=
  if i + 4 ≤ extEnd then
    (u16At hs i).bind fun extType => (u16At hs (i + 2)).bind fun extLen =>
      if extEnd < i + 4 + extLen then some none
      else if extType = 0 then (sliceAt hs (i + 4) (i + 4 + extLen)).bind parseSniExtension
      else extensions hs extEnd (i + 4 + extLen)
  else some none
termination_by extEnd - i

/-- Where the extensions of a hello begin and how long they are said to be: past the session id, the
cipher suites and the compression methods, each with its length in front. -/
def extensionsAt (hs : Bytes) : Option (Option (ℕ × ℕ)) :=
  if hs.length < 4 then some none
  else hs[0]?.bind fun kind =>
    if kind ≠ 0x01 then some none
    -- the length of the handshake is read and not used
    else (u16At hs 1).bind fun _ => hs[3]?.bind fun _ =>
      if hs.length < 38 then some none
      else if hs.length < 39 then some none
      else hs[38]?.bind fun sidLen =>
        if hs.length < 39 + sidLen.toNat + 2 then some none
        else (u16At hs (39 + sidLen.toNat)).bind fun csLen =>
          if hs.length < 39 + sidLen.toNat + 2 + csLen + 1 then some none
          else hs[39 + sidLen.toNat + 2 + csLen]?.bind fun compLen =>
            let i := 39 + sidLen.toNat + 2 + csLen + 1 + compLen.toNat
            if hs.length < i + 2 then some none
            else (u16At hs i).bind fun extTotal => some (some (i + 2, extTotal))

/-- `extract_sni`. -/
def extractSni (data : Bytes) : Option (Option Text) :=
  if data.length < 5 then some none
  else data[0]?.bind fun kind =>
    if kind ≠ 0x16 then some none
    else (u16At data 3).bind fun recLen =>
      if data.length < 5 + recLen ∧ data.length < 9 then some none
      else (extensionsAt (data.drop 5)).bind fun
        | none => some none
        | some (i, extTotal) =>
            extensions (data.drop 5) (min (i + extTotal) (data.drop 5).length) i

/-! ## HTTP -/

/-- `str::rsplit_once` of a character. -/
def rsplitOnce (sep : Char) (s : Text) : Option (Text × Text) :=
  match s.rdropWhile (· != sep) with
  | [] => none
  | c :: front => some ((c :: front).dropLast, s.rtakeWhile (· != sep))

/-- The name in the value of a `Host` header: without brackets or without the port. -/
def hostOf (value : Text) : Text :=
  match strip ['['] value with
  | some inner => firstPiece ']' inner
  | none =>
      match rsplitOnce ':' value with
      | some (host, port) => if port.all Char.isDigit then host else value
      | none => value

/-- One line: the name in it if it is a `Host` header with one. -/
def hostInLine (line : Text) : Option (Option Text) :=
  if 5 ≤ byteLength (trim line) then
    (cutAt 5 (trim line)).bind fun (keyword, value) =>
      some (if toAsciiLowercase keyword = "host:".toList then namedHost (hostOf (trim value))
        else none)
  else some none

/-- The loop over the lines. -/
def hostInLines : List Text → Option (Option Text)
  | [] => some none
  | line :: rest => (hostInLine line).bind fun
      | some host => some (some host)
      | none => hostInLines rest

def httpMethods : List Text :=
  ["GET ".toList, "POST ".toList, "HEAD ".toList, "PUT ".toList, "OPTIONS ".toList,
    "DELETE ".toList, "CONNECT ".toList, "PATCH ".toList]

/-- The text is taken for a request. -/
def looksLikeHttp (text : Text) : Bool :=
  httpMethods.any (·.isPrefixOf text) || containsText "HTTP/".toList text

/-- `text.split(['\r', '\n'])`. -/
def splitLines (text : Text) : List Text := text.splitOnP fun c => c = '\r' ∨ c = '\n'

def extractHttpHost (data : Bytes) : Option (Option Text) :=
  if data.length < 16 then some none
  else data[0]?.bind fun first =>
    if first = 0x16 then some none
    else
      match fromUtf8 data with
      | none => some none
      | some text =>
          if looksLikeHttp text.toList then hostInLines (splitLines text.toList) else some none

def extractHostnameFromPrefix (data : Bytes) : Option (Option Text) :=
  (extractSni data).bind fun
    | some host => some (some host)
    | none => extractHttpHost data

/-! ## Waiting for the name -/

def serverSpeaksFirst (port : ℕ) : Bool := [21, 22, 23, 25, 110, 143, 3306].contains port

def looksLikeIncompleteHttp (data : Bytes) : Bool :=
  if data = [] ∨ data[0]? = some 0x16 then false
  else
    match fromUtf8 data with
    | none => false
    | some text =>
        ["GET ".toList, "POST ".toList, "HEAD ".toList, "CONNECT ".toList].any
            (·.isPrefixOf (text.toList.map Char.toUpper)) &&
          !containsText "\r\n\r\n".toList text.toList

/-- No name yet and none is waited for: the record is complete, or this is no request. -/
def givesUp (data : Bytes) : Bool :=
  if 5 ≤ data.length ∧ data[0]? = some 0x16 then
    ((u16At data 3).map fun recLen => decide (5 + recLen ≤ data.length)).getD false
  else decide (32 ≤ data.length) && !looksLikeIncompleteHttp data

/-- The loop ends: there is a name, or too much without one, or none is to come. -/
def stopsReading (data : Bytes) (host : Option Text) : Bool :=
  decide (16 * 1024 ≤ data.length) || host.isSome || givesUp data

/-- The loop of `peek_for_hostname`, given what each read returns until there is no more in time. A read
of nothing is the end of the stream. -/
def peekLoop : Bytes → List Bytes → Option (Bytes × Option Text)
  | data, [] => (extractHostnameFromPrefix data).map fun host => (data, host)
  | data, bytes :: rest => (extractHostnameFromPrefix data).bind fun host =>
      if stopsReading data host ∨ bytes = [] then some (data, host)
      else peekLoop (data ++ bytes) rest

/-- `peek_for_hostname`. -/
def peekForHostname (destPort : ℕ) (reads : List Bytes) : Option (Bytes × Option Text) :=
  if serverSpeaksFirst destPort then some ([], none) else peekLoop [] reads

/-!
# Names in a TLS hello

Reference: `extract_sni` and `parse_sni_extension` of `src-tauri/src/sockscap/rules/sni.rs`.

Every access of the two parsers is guarded (`exists_extractSni`), and a name that was found stays the
name when more bytes arrive (`extractSni_append`).
-/

open Agent (Text)

/-! ## Reading bytes -/

section Reading

variable {bytes : Bytes} {i n : ℕ}

theorem exists_getElem? (h : i < bytes.length) : ∃ b, bytes[i]? = some b :=
  ⟨_, getElem?_eq_getElem h⟩

theorem exists_u16At (h : i + 2 ≤ bytes.length) : ∃ n, u16At bytes i = some n := by
  obtain ⟨high, hhigh⟩ := exists_getElem? (show i < bytes.length by omega)
  obtain ⟨low, hlow⟩ := exists_getElem? (show i + 1 < bytes.length by omega)
  exact ⟨_, by rw [u16At, hhigh, hlow]; rfl⟩

theorem exists_sliceAt {start stop : ℕ} (h : stop ≤ bytes.length) :
    ∃ piece, sliceAt bytes start stop = some piece ∧ piece.length = stop - start :=
  ⟨_, if_pos h, length_slice bytes h⟩

theorem getElem?_append_of_some {b : UInt8} (h : bytes[i]? = some b) (more : Bytes) :
    (bytes ++ more)[i]? = some b := by
  obtain ⟨hlt, rfl⟩ := List.getElem?_eq_some_iff.mp h
  rw [getElem?_append_left hlt, h]

theorem u16At_append (h : u16At bytes i = some n) (more : Bytes) : u16At (bytes ++ more) i = some n := by
  obtain ⟨high, hhigh, h⟩ := bind_eq_some_iff.mp h
  obtain ⟨low, hlow, rfl⟩ := Option.map_eq_some_iff.mp h
  rw [u16At, getElem?_append_of_some hhigh, getElem?_append_of_some hlow]
  rfl

theorem sliceAt_append {start stop : ℕ} {piece : Bytes} (h : sliceAt bytes start stop = some piece)
    (more : Bytes) : sliceAt (bytes ++ more) start stop = some piece := by
  rw [sliceAt, Option.ite_none_right_eq_some] at h
  obtain ⟨hstop, h⟩ := h
  have hle : stop ≤ (bytes ++ more).length := by
    rw [length_append]
    omega
  have hsame : slice (bytes ++ more) start stop = slice bytes start stop := by
    rw [slice, slice, drop_append, take_append_of_le_length]
    rw [length_drop]
    omega
  rw [sliceAt, if_pos hle, hsame, h]

/-- Past a guard that gives up. -/
theorem of_guard {α : Type} {c : Prop} [Decidable c] {x : Option (Option α)} {a : α}
    (h : (if c then some none else x) = some (some a)) : ¬ c ∧ x = some (some a) := by
  by_cases hc : c
  · rw [if_pos hc] at h
    cases h
  · rw [if_neg hc] at h
    exact ⟨hc, h⟩

/-- A guard that gives up is no access. -/
theorem exists_of_guard {α : Type} {c : Prop} [Decidable c] {x : Option (Option α)}
    (h : ¬ c → ∃ a, x = some a) : ∃ a, (if c then some none else x) = some a := by
  by_cases hc : c
  · exact ⟨none, if_pos hc⟩
  · rw [if_neg hc]
    exact h hc

end Reading

/-! ## No access fails -/

theorem exists_serverNames {ext : Bytes} {stop : ℕ} (hstop : stop ≤ ext.length) (i : ℕ) :
    ∃ host, serverNames ext stop i = some host := by
  induction hrest : stop - i using Nat.strong_induction_on generalizing i with
  | _ rest ih =>
    rw [serverNames]
    split
    · next hle =>
      obtain ⟨nameType, htype⟩ := exists_getElem? (show i < ext.length by omega)
      obtain ⟨nameLen, hlen⟩ := exists_u16At (show i + 1 + 2 ≤ ext.length by omega)
      have hnext := ih (stop - (i + 3 + nameLen)) (by omega) (i + 3 + nameLen) rfl
      rw [htype, hlen, bind_some, bind_some]
      split
      · exact ⟨_, rfl⟩
      · split
        · obtain ⟨piece, hpiece, -⟩ := @exists_sliceAt ext (i + 3) (i + 3 + nameLen) (by omega)
          rw [hpiece, bind_some]
          split
          · exact ⟨_, rfl⟩
          · split
            · exact ⟨_, rfl⟩
            · exact hnext
        · exact hnext
    · exact ⟨_, rfl⟩

theorem exists_parseSniExtension (ext : Bytes) : ∃ host, parseSniExtension ext = some host := by
  rw [parseSniExtension]
  split
  · exact ⟨_, rfl⟩
  · obtain ⟨listLen, hlen⟩ := exists_u16At (show 0 + 2 ≤ ext.length by omega)
    rw [hlen, bind_some]
    exact exists_serverNames (min_le_right _ _) 2

variable {hs : Bytes}

theorem exists_extensions {extEnd : ℕ} (hend : extEnd ≤ hs.length) (i : ℕ) :
    ∃ host, extensions hs extEnd i = some host := by
  induction hrest : extEnd - i using Nat.strong_induction_on generalizing i with
  | _ rest ih =>
    rw [extensions]
    split
    · next hle =>
      obtain ⟨extType, htype⟩ := exists_u16At (show i + 2 ≤ hs.length by omega)
      obtain ⟨extLen, hlen⟩ := exists_u16At (show i + 2 + 2 ≤ hs.length by omega)
      rw [htype, hlen, bind_some, bind_some]
      split
      · exact ⟨_, rfl⟩
      · split
        · obtain ⟨piece, hpiece, -⟩ := @exists_sliceAt hs (i + 4) (i + 4 + extLen) (by omega)
          rw [hpiece, bind_some]
          exact exists_parseSniExtension piece
        · exact ih (extEnd - (i + 4 + extLen)) (by omega) (i + 4 + extLen) rfl
    · exact ⟨_, rfl⟩

theorem exists_extensionsAt (hs : Bytes) : ∃ place, extensionsAt hs = some place := by
  rw [extensionsAt]
  refine exists_of_guard fun hlength => ?_
  obtain ⟨kind, hkind⟩ := exists_getElem? (show 0 < hs.length by omega)
  rw [hkind, bind_some]
  refine exists_of_guard fun _ => ?_
  obtain ⟨hsLen, hhsLen⟩ := exists_u16At (show 1 + 2 ≤ hs.length by omega)
  obtain ⟨hsLow, hhsLow⟩ := exists_getElem? (show 3 < hs.length by omega)
  rw [hhsLen, hhsLow, bind_some, bind_some]
  refine exists_of_guard fun hrandom => exists_of_guard fun hsession => ?_
  obtain ⟨sidLen, hsid⟩ := exists_getElem? (show 38 < hs.length by omega)
  rw [hsid, bind_some]
  refine exists_of_guard fun hciphers => ?_
  obtain ⟨csLen, hcs⟩ := exists_u16At (show 39 + sidLen.toNat + 2 ≤ hs.length by omega)
  rw [hcs, bind_some]
  refine exists_of_guard fun hcompression => ?_
  obtain ⟨compLen, hcomp⟩ := exists_getElem?
    (show 39 + sidLen.toNat + 2 + csLen < hs.length by omega)
  rw [hcomp, bind_some]
  refine exists_of_guard fun hextensions => ?_
  obtain ⟨extTotal, hext⟩ := exists_u16At
    (show 39 + sidLen.toNat + 2 + csLen + 1 + compLen.toNat + 2 ≤ hs.length by omega)
  rw [hext, bind_some]
  exact ⟨_, rfl⟩

/-- The TLS parsers never leave the bytes they were given. -/
theorem exists_extractSni (data : Bytes) : ∃ host, extractSni data = some host := by
  rw [extractSni]
  refine exists_of_guard fun hlength => ?_
  obtain ⟨kind, hkind⟩ := exists_getElem? (show 0 < data.length by omega)
  rw [hkind, bind_some]
  refine exists_of_guard fun _ => ?_
  obtain ⟨recLen, hlen⟩ := exists_u16At (show 3 + 2 ≤ data.length by omega)
  rw [hlen, bind_some]
  refine exists_of_guard fun _ => ?_
  obtain ⟨place, hplace⟩ := exists_extensionsAt (data.drop 5)
  rw [hplace, bind_some]
  rcases place with _ | ⟨i, extTotal⟩
  · exact ⟨_, rfl⟩
  · exact exists_extensions (min_le_right _ _) i

/-! ## More bytes -/

variable {host : Text}

theorem extensions_append {extEnd extEnd' i : ℕ} (hend : extEnd ≤ extEnd')
    (h : extensions hs extEnd i = some (some host)) (more : Bytes) :
    extensions (hs ++ more) extEnd' i = some (some host) := by
  induction hrest : extEnd - i using Nat.strong_induction_on generalizing i with
  | _ rest ih =>
    rw [extensions] at h
    split at h
    · next hle =>
      obtain ⟨extType, htype, h⟩ := bind_eq_some_iff.mp h
      obtain ⟨extLen, hlen, h⟩ := bind_eq_some_iff.mp h
      obtain ⟨hfits, h⟩ := of_guard h
      rw [extensions, if_pos (by omega), u16At_append htype, u16At_append hlen, bind_some,
        bind_some, if_neg (by omega)]
      split at h
      · next hname =>
        obtain ⟨piece, hpiece, h⟩ := bind_eq_some_iff.mp h
        rw [if_pos hname, sliceAt_append hpiece, bind_some, h]
      · next hother =>
        rw [if_neg hother]
        exact ih (extEnd - (i + 4 + extLen)) (by omega) h rfl
    · cases h

theorem extensionsAt_append {i extTotal : ℕ}
    (h : extensionsAt hs = some (some (i, extTotal))) (more : Bytes) :
    extensionsAt (hs ++ more) = some (some (i, extTotal)) := by
  rw [extensionsAt] at h
  obtain ⟨hlength, h⟩ := of_guard h
  obtain ⟨kind, hkind, h⟩ := bind_eq_some_iff.mp h
  obtain ⟨hhello, h⟩ := of_guard h
  obtain ⟨hsLen, hhsLen, h⟩ := bind_eq_some_iff.mp h
  obtain ⟨hsLow, hhsLow, h⟩ := bind_eq_some_iff.mp h
  obtain ⟨hrandom, h⟩ := of_guard h
  obtain ⟨hsession, h⟩ := of_guard h
  obtain ⟨sidLen, hsid, h⟩ := bind_eq_some_iff.mp h
  obtain ⟨hciphers, h⟩ := of_guard h
  obtain ⟨csLen, hcs, h⟩ := bind_eq_some_iff.mp h
  obtain ⟨hcompression, h⟩ := of_guard h
  obtain ⟨compLen, hcomp, h⟩ := bind_eq_some_iff.mp h
  obtain ⟨hextensions, h⟩ := of_guard h
  obtain ⟨total, htotal, h⟩ := bind_eq_some_iff.mp h
  have hle := @length_append _ hs more
  rw [extensionsAt, if_neg (by omega), getElem?_append_of_some hkind, bind_some,
    if_neg hhello, u16At_append hhsLen, bind_some, getElem?_append_of_some hhsLow,
    bind_some, if_neg (by omega), if_neg (by omega), getElem?_append_of_some hsid,
    bind_some, if_neg (by omega), u16At_append hcs, bind_some, if_neg (by omega),
    getElem?_append_of_some hcomp, bind_some]
  dsimp only
  rw [if_neg (by omega), u16At_append htotal, bind_some, h]

/-- The name of a hello does not change when more bytes arrive. -/
theorem extractSni_append {data : Bytes} (h : extractSni data = some (some host))
    (more : Bytes) : extractSni (data ++ more) = some (some host) := by
  rw [extractSni] at h
  obtain ⟨hlength, h⟩ := of_guard h
  obtain ⟨kind, hkind, h⟩ := bind_eq_some_iff.mp h
  obtain ⟨htls, h⟩ := of_guard h
  obtain ⟨recLen, hrec, h⟩ := bind_eq_some_iff.mp h
  obtain ⟨hrecord, h⟩ := of_guard h
  obtain ⟨place, hplace, h⟩ := bind_eq_some_iff.mp h
  have hle := @length_append _ data more
  have hdrop : (data ++ more).drop 5 = data.drop 5 ++ more :=
    drop_append_of_le_length (by omega)
  rcases place with _ | ⟨i, extTotal⟩
  · cases h
  rw [extractSni, if_neg (by omega), getElem?_append_of_some hkind, bind_some, if_neg htls,
    u16At_append hrec, bind_some, if_neg (by omega), hdrop, extensionsAt_append hplace,
    bind_some]
  refine extensions_append ?_ h more
  rw [length_append]
  omega

/-- Only what begins like a record is read as one. -/
theorem first_of_extractSni {data : Bytes} (h : extractSni data = some (some host)) :
    data[0]? = some 0x16 := by
  rw [extractSni] at h
  obtain ⟨-, h⟩ := of_guard h
  obtain ⟨kind, hkind, h⟩ := bind_eq_some_iff.mp h
  obtain ⟨htls, -⟩ := of_guard h
  rw [hkind, not_not.mp htls]

end Taomni.Sockscap
