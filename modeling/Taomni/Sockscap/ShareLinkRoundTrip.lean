import Taomni.Common.Lists
import Taomni.Servers.Cron
import Taomni.Sockscap.ShareLink
import Taomni.Sockscap.SniffingHost
import Taomni.Vnc.ClipboardRoundTrip

/-!
# Shadowsocks links as they are written

A link has its credentials and its server in one of two forms, and a tag with any of its bytes escaped.

Reference: `src-tauri/src/sockscap/core/share_link.rs`.
-/

namespace Taomni.Sockscap.ShareLink

open List
open Agent (Text isWhitespace trim trim_of_forall)
open Base64 (Engine)
open Dap (splitOnce parseUsize)
open Encoding (fromUtf8 utf8Bytes fromUtf8_utf8Bytes)
open Servers (splitOnce_append splitOnce_eq_none)
open Vnc (fromUtf8Lossy_utf8Bytes)
open Bool (and_eq_true not_eq_true not_eq_true')
open Option (bind_some getD_some map_some)

/-! ## Tags -/

/-- Each byte as a percent sign and two hexadecimal digits. -/
inductive EscapesBytes : Text → Bytes → Prop
  | nil : EscapesBytes [] []
  | cons {h l : Char} {high low : ℕ} {escape : Text} {bytes : Bytes} (hhigh : IpAddr.toDigit 16 h = some high)
      (hlow : IpAddr.toDigit 16 l = some low) (hrest : EscapesBytes escape bytes) :
      EscapesBytes ('%' :: h :: l :: escape) (UInt8.ofNat (high * 16 + low) :: bytes)

/-- A character that may stand for itself: a graphic one of ASCII, but no percent sign. -/
def isFragmentChar (c : Char) : Bool := 0x21 ≤ c.toNat && c.toNat ≤ 0x7E && c != '%'

/-- A fragment that is a percent-encoding of a tag: each character stands for itself or has its bytes escaped. -/
inductive WritesTag : Text → Text → Prop
  | nil : WritesTag [] []
  | plain {c : Char} {fragment tag : Text} (hc : isFragmentChar c = true) (hrest : WritesTag fragment tag) :
      WritesTag (c :: fragment) (c :: tag)
  | escaped {c : Char} {escape fragment tag : Text} (hescape : EscapesBytes escape (String.utf8EncodeChar c))
      (hrest : WritesTag fragment tag) : WritesTag (escape ++ fragment) (c :: tag)

structure LinkTag where
  tag : Text
  fragment : Text
  writes : WritesTag fragment tag

/-! ## Servers and links -/

/-- A character of a host: no blank and no mark of a link. -/
def isHostChar (c : Char) : Bool := !isWhitespace c && !"@#?/[]".toList.contains c

/-- A DNS name or an IPv4 address, or an IPv6 address. -/
inductive LinkHost where
  | name (text : Text) (nonempty : text ≠ []) (plain : ∀ c ∈ text, isHostChar c = true ∧ c ≠ ':')
  | ipv6 (text : Text) (plain : ∀ c ∈ text, isHostChar c = true)

def LinkHost.address : LinkHost → Text
  | name text _ _ => text
  | ipv6 text _ => text

/-- An IPv6 address stands in brackets. -/
def LinkHost.written : LinkHost → Text
  | name text _ _ => text
  | ipv6 text _ => '[' :: (text ++ [']'])

structure Server where
  method : Text
  method_plain : ':' ∉ method
  password : Text
  host : LinkHost
  port : UInt16

def Server.credentials (s : Server) : Text := s.method ++ ':' :: s.password

def Server.hostPort (s : Server) : Text := s.host.written ++ ':' :: Nat.toDigits 10 s.port.toNat

/-- The value of a plugin, with its characters escaped where that is needed. -/
structure Plugin where
  text : Text
  plain : ∀ c ∈ text, isWhitespace c = false ∧ c ≠ '#'

inductive Form where
  /-- The credentials in base64, and after the server maybe a plugin. -/
  | sip002 (plugin : Option Plugin)
  /-- All in base64. -/
  | legacy

structure Link where
  server : Server
  engine : Engine
  form : Form
  tag : Option LinkTag

def pluginText : Option Plugin → Text
  | none => []
  | some plugin => "/?plugin=".toList ++ plugin.text

/-- A link without its scheme and its tag. -/
def Link.body (link : Link) : Text :=
  match link.form with
  | .sip002 plugin =>
    link.engine.encode (textBytes link.server.credentials) ++ '@' :: (link.server.hostPort ++ pluginText plugin)
  | .legacy => link.engine.encode (textBytes (link.server.credentials ++ '@' :: link.server.hostPort))

def Link.fragmentText (link : Link) : Text :=
  match link.tag with
  | none => []
  | some tag => '#' :: tag.fragment

def Link.text (link : Link) : Text := "ss://".toList ++ (link.body ++ link.fragmentText)

/-- What a link says. -/
def Link.parsed (link : Link) : ParsedShareLink where
  kindTag := "shadowsocks".toList
  name := (link.tag.map LinkTag.tag).getD []
  host := link.server.host.address
  port := link.server.port.toNat
  params := { method := link.server.method }
  secret := link.server.password
  uuid := []

/-- There is no plugin, and no plus sign stands for itself in the tag. -/
def Link.IsPlain (link : Link) : Prop :=
  (∀ plugin, link.form ≠ .sip002 (some plugin)) ∧ ∀ tag, link.tag = some tag → '+' ∉ tag.fragment

/-- A text of links: blank, or with the colon of a scheme in it. -/
def IsLinkText (text : Text) : Prop := (∀ c ∈ text, isWhitespace c = true) ∨ ':' ∈ text

/-! ## Bytes -/

theorem textOfBytes_textBytes (s : Text) : textOfBytes (textBytes s) = some s := by
  rw [textOfBytes, textBytes, fromUtf8_utf8Bytes, map_some, String.toList_ofList]

theorem textBytes_eq (s : Text) : textBytes s = s.flatMap String.utf8EncodeChar := by
  simp [textBytes, utf8Bytes, List.utf8Encode]

theorem textBytes_cons (c : Char) (s : Text) : textBytes (c :: s) = String.utf8EncodeChar c ++ textBytes s := by
  rw [textBytes_eq, textBytes_eq, flatMap_cons]

variable {c : Char}

/-- A character of ASCII is its byte. -/
theorem textBytes_cons_ascii (hc : c.toNat ≤ 127) (s : Text) :
    textBytes (c :: s) = UInt8.ofNat c.toNat :: textBytes s := by
  have hval : c.val.toNat ≤ 127 := hc
  rw [textBytes_cons, String.utf8EncodeChar, if_pos hval]
  rfl

/-! ## Percent-encoding -/

/-- A hexadecimal digit is a letter or a decimal digit. -/
theorem toDigit_bounds {n : ℕ} (h : IpAddr.toDigit 16 c = some n) :
    0x30 ≤ c.toNat ∧ c.toNat ≤ 0x7A ∧ n < 16 := by
  obtain ⟨hvalue, hlt⟩ := Option.filter_eq_some_iff.1 h
  have hlow : '0'.toNat = 0x30 := rfl
  have hnine : '9'.toNat = 0x39 := rfl
  have ha : 'a'.toNat = 0x61 := rfl
  have hz : 'z'.toNat = 0x7A := rfl
  have hA : 'A'.toNat = 0x41 := rfl
  have hZ : 'Z'.toNat = 0x5A := rfl
  have hle : ∀ {a b : Char}, a ≤ b → a.toNat ≤ b.toNat := fun h => h
  refine ⟨?_, ?_, of_decide_eq_true hlt⟩
  · split at hvalue
    · rename_i hc
      exact hle hc.1
    split at hvalue
    · rename_i hc
      have := hle hc.1
      omega
    split at hvalue
    · rename_i hc
      have := hle hc.1
      omega
    · exact nomatch hvalue
  · split at hvalue
    · rename_i hc
      have := hle hc.2
      omega
    split at hvalue
    · rename_i hc
      exact hle hc.2
    split at hvalue
    · rename_i hc
      have := hle hc.2
      omega
    · exact nomatch hvalue

theorem hexDigit_ofNat {n : ℕ} (h : IpAddr.toDigit 16 c = some n) :
    hexDigit (UInt8.ofNat c.toNat) = some n := by
  obtain ⟨-, hhigh, -⟩ := toDigit_bounds h
  have hbyte : (UInt8.ofNat c.toNat).toNat = c.toNat := by
    rw [UInt8.toNat_ofNat']
    omega
  rw [hexDigit, hbyte, Char.ofNat_toNat, h]

variable {bytes : Bytes} {escape : Text}

/-- An escape becomes its bytes. -/
theorem percentDecodeBytes_escape (h : EscapesBytes escape bytes) (rest : Text) :
    percentDecodeBytes (textBytes (escape ++ rest)) = bytes ++ percentDecodeBytes (textBytes rest) := by
  induction h with
  | nil => rfl
  | @cons h l high low escape bytes hhigh hlow hrest ih =>
    have hpercent : UInt8.ofNat '%'.toNat = 0x25 := by decide
    obtain ⟨-, hh, -⟩ := toDigit_bounds hhigh
    obtain ⟨-, hl, -⟩ := toDigit_bounds hlow
    rw [cons_append, cons_append, cons_append, textBytes_cons_ascii (show '%'.toNat ≤ 127 by decide),
      textBytes_cons_ascii (show h.toNat ≤ 127 by omega), textBytes_cons_ascii (show l.toNat ≤ 127 by omega), hpercent,
      percentDecodeBytes, escapedByte, hexDigit_ofNat hhigh, hexDigit_ofNat hlow]
    dsimp only [bind_some, map_some]
    rw [drop_succ_cons, drop_succ_cons, drop_zero, ih, cons_append]

/-- A character that stands for itself, unless it is the plus sign. -/
theorem percentDecodeBytes_plain (hc : isFragmentChar c = true) (rest : Text) :
    percentDecodeBytes (textBytes (c :: rest)) =
      (if c = '+' then 0x20 else UInt8.ofNat c.toNat) :: percentDecodeBytes (textBytes rest) := by
  simp only [isFragmentChar, and_eq_true, decide_eq_true_eq, bne_iff_ne] at hc
  obtain ⟨⟨-, hhigh⟩, hpercent⟩ := hc
  have hbyte : (UInt8.ofNat c.toNat).toNat = c.toNat := by
    rw [UInt8.toNat_ofNat']
    omega
  have hiff : ∀ d : Char, d.toNat ≤ 127 → (UInt8.ofNat c.toNat = UInt8.ofNat d.toNat ↔ c = d) := by
    intro d hd
    refine ⟨fun heq => ?_, fun heq => by rw [heq]⟩
    have htoNat := congrArg UInt8.toNat heq
    rw [hbyte, UInt8.toNat_ofNat'] at htoNat
    refine Char.toNat_inj.1 ?_
    omega
  have hnone : escapedByte (UInt8.ofNat c.toNat :: textBytes rest) = none := by
    have hne : UInt8.ofNat c.toNat ≠ 0x25 := fun heq => hpercent ((hiff '%' (by decide)).1 heq)
    rw [escapedByte]
    rintro high low more heq
    exact hne (List.cons.inj heq).1
  rw [textBytes_cons_ascii (by omega), percentDecodeBytes, hnone]
  dsimp only
  have hplus : UInt8.ofNat c.toNat = 0x2B ↔ c = '+' := hiff '+' (by decide)
  by_cases hc : c = '+'
  · rw [if_pos hc, if_pos (hplus.2 hc)]
  · rw [if_neg hc, if_neg fun heq => hc (hplus.1 heq)]

theorem not_mem_escape (h : EscapesBytes escape bytes) : '+' ∉ escape := by
  induction h with
  | nil => exact not_mem_nil
  | @cons h l high low escape bytes hhigh hlow hrest ih =>
    have hdigit : ∀ {c : Char} {n : ℕ}, IpAddr.toDigit 16 c = some n → '+' ≠ c := by
      rintro c n hc rfl
      exact nomatch hc
    rw [mem_cons, mem_cons, mem_cons, not_or, not_or, not_or]
    exact ⟨by decide, hdigit hhigh, hdigit hlow, ih⟩

/-- A fragment is decoded to a text that is its tag when no plus sign stands for itself. -/
theorem exists_percentDecodeBytes {fragment tag : Text} (h : WritesTag fragment tag) :
    ∃ decoded, percentDecodeBytes (textBytes fragment) = textBytes decoded ∧ (decoded = tag ↔ '+' ∉ fragment) := by
  induction h with
  | nil => exact ⟨[], by rw [textBytes_eq, flatMap_nil, percentDecodeBytes], iff_of_true rfl not_mem_nil⟩
  | @plain c fragment tag hc hrest ih =>
    obtain ⟨decoded, hdecoded, hiff⟩ := ih
    have hsmall : c.toNat ≤ 127 := by
      simp only [isFragmentChar, and_eq_true, decide_eq_true_eq] at hc
      omega
    by_cases hplus : c = '+'
    · subst hplus
      refine ⟨' ' :: decoded, ?_, iff_of_false (fun h => ?_) (fun h => h mem_cons_self)⟩
      · rw [percentDecodeBytes_plain hc, if_pos rfl, hdecoded, textBytes_cons_ascii (by decide)]
        rfl
      · exact absurd (List.cons.inj h).1 (by decide)
    · refine ⟨c :: decoded, ?_, ?_⟩
      · rw [percentDecodeBytes_plain hc, if_neg hplus, hdecoded, textBytes_cons_ascii hsmall]
      · rw [cons_inj_right, hiff, mem_cons, not_or, and_iff_right (Ne.symm hplus)]
  | @escaped c escape fragment tag hescape hrest ih =>
    obtain ⟨decoded, hdecoded, hiff⟩ := ih
    refine ⟨c :: decoded, ?_, ?_⟩
    · rw [percentDecodeBytes_escape hescape, hdecoded, textBytes_cons]
    · rw [cons_inj_right, hiff, mem_append, not_or, and_iff_right (not_mem_escape hescape)]

theorem percentDecode_eq_iff (tag : LinkTag) : percentDecode tag.fragment = tag.tag ↔ '+' ∉ tag.fragment := by
  obtain ⟨decoded, hdecoded, hiff⟩ := exists_percentDecodeBytes tag.writes
  rw [percentDecode, hdecoded, textBytes, fromUtf8Lossy_utf8Bytes, String.toList_ofList, hiff]

/-! ## Characters of links -/

/-- The characters of encodings: letters, digits and marks. -/
theorem encode_plain (e : Engine) (bytes : Bytes) :
    ∀ c ∈ e.encode bytes, isWhitespace c = false ∧ c ∉ ['#', '?', '@', ':'] := by
  have htable : ∀ u : Bool, (Base64.alphabet u ++ ['=']).all
      (fun c => !isWhitespace c && !(['#', '?', '@', ':'].contains c)) = true := by decide
  intro c hc
  have hmem : c ∈ Base64.alphabet e.urlSafe ++ ['='] := by
    rw [mem_append, mem_singleton]
    exact Base64.mem_encode hc
  have hplain := all_eq_true.1 (htable e.urlSafe) c hmem
  rw [and_eq_true, not_eq_true', not_eq_true', ← not_eq_true, ← not_eq_true,
    contains_iff_mem] at hplain
  exact ⟨Bool.eq_false_iff.2 hplain.1, hplain.2⟩

theorem isHostChar_iff :
    isHostChar c = true ↔ isWhitespace c = false ∧ c ∉ ['@', '#', '?', '/', '[', ']'] := by
  have hmarks : "@#?/[]".toList = ['@', '#', '?', '/', '[', ']'] := by decide
  rw [isHostChar, hmarks, and_eq_true, not_eq_true', not_eq_true', ← not_eq_true (List.contains _ _),
    contains_iff_mem]

theorem digit_plain {n : ℕ} (hc : c ∈ Nat.toDigits 10 n) :
    isWhitespace c = false ∧ c ∉ ['@', '#', '?', '/', '[', ']', ':'] := by
  have hdigit : c.isDigit = true := Nat.isDigit_of_mem_toDigits (by decide) (by decide) hc
  refine ⟨Dap.isWhitespace_of_isDigit hdigit, fun hmem => ?_⟩
  have hnone : ['@', '#', '?', '/', '[', ']', ':'].all (!Char.isDigit ·) = true := by decide
  have hnot := all_eq_true.1 hnone c hmem
  rw [hdigit] at hnot
  exact Bool.false_ne_true hnot

/-- No blank and no mark of a link but brackets and colons stand in a server. -/
theorem hostPort_plain (s : Server) : ∀ c ∈ s.hostPort, isWhitespace c = false ∧ c ∉ ['@', '#', '?', '/'] := by
  have hhost : ∀ c, isHostChar c = true → isWhitespace c = false ∧ c ∉ ['@', '#', '?', '/'] := by
    intro c hc
    obtain ⟨hblank, hmarks⟩ := isHostChar_iff.1 hc
    exact ⟨hblank, fun hmem => hmarks (mem_append_left ['[', ']'] hmem)⟩
  have hmarks : ∀ c ∈ ['[', ']', ':'], isWhitespace c = false ∧ c ∉ ['@', '#', '?', '/'] :=
    forall_mem_of_all (by decide)
  intro c hc
  rw [Server.hostPort, mem_append, mem_cons] at hc
  rcases hc with hc | rfl | hc
  · cases hs : s.host with
    | name text nonempty plain =>
      rw [hs] at hc
      exact hhost c (plain c hc).1
    | ipv6 text plain =>
      rw [hs, LinkHost.written, mem_cons, mem_append, mem_singleton] at hc
      rcases hc with rfl | hc | rfl
      · exact hmarks _ (by decide)
      · exact hhost c (plain c hc)
      · exact hmarks _ (by decide)
  · exact hmarks _ (by decide)
  · obtain ⟨hblank, hnone⟩ := digit_plain hc
    exact ⟨hblank, fun hmem => hnone (mem_append_left ['[', ']', ':'] hmem)⟩

theorem escape_plain (h : EscapesBytes escape bytes) :
    ∀ c ∈ escape, 0x21 ≤ c.toNat ∧ c.toNat ≤ 0x7E := by
  induction h with
  | nil => exact fun c hc => nomatch hc
  | @cons h l high low escape bytes hhigh hlow hrest ih =>
    obtain ⟨hh, hh', -⟩ := toDigit_bounds hhigh
    obtain ⟨hl, hl', -⟩ := toDigit_bounds hlow
    refine forall_mem_cons.2 ⟨by decide, forall_mem_cons.2 ⟨by omega, forall_mem_cons.2 ⟨by omega, ih⟩⟩⟩

theorem fragment_plain {fragment tag : Text} (h : WritesTag fragment tag) :
    ∀ c ∈ fragment, 0x21 ≤ c.toNat ∧ c.toNat ≤ 0x7E := by
  induction h with
  | nil => exact fun c hc => nomatch hc
  | @plain c fragment tag hc hrest ih =>
    simp only [isFragmentChar, and_eq_true, decide_eq_true_eq] at hc
    exact forall_mem_cons.2 ⟨hc.1, ih⟩
  | escaped hescape hrest ih =>
    intro c hc
    rcases mem_append.1 hc with hc | hc
    · exact escape_plain hescape c hc
    · exact ih c hc

theorem isWhitespace_of_graphic (h : 0x21 ≤ c.toNat ∧ c.toNat ≤ 0x7E) : isWhitespace c = false := by
  rw [Bool.eq_false_iff]
  intro hblank
  simp only [isWhitespace, Bool.or_eq_true, and_eq_true, decide_eq_true_eq, beq_iff_eq] at hblank
  omega

theorem body_plain (link : Link) : ∀ c ∈ link.body, isWhitespace c = false ∧ c ≠ '#' := by
  have hencode : ∀ bytes, ∀ c ∈ link.engine.encode bytes, isWhitespace c = false ∧ c ≠ '#' := fun bytes c hc =>
    ⟨(encode_plain _ _ c hc).1, fun heq => (encode_plain _ _ c hc).2 (by rw [heq]; decide)⟩
  intro c hc
  cases hform : link.form with
  | legacy =>
    rw [Link.body, hform] at hc
    exact hencode _ c hc
  | sip002 plugin =>
    rw [Link.body, hform] at hc
    rcases mem_append.1 hc with hc | hc
    · exact hencode _ c hc
    rcases mem_cons.1 hc with rfl | hc
    · decide
    rcases mem_append.1 hc with hc | hc
    · obtain ⟨hblank, hmarks⟩ := hostPort_plain _ c hc
      exact ⟨hblank, fun heq => hmarks (by rw [heq]; decide)⟩
    · cases plugin with
      | none => exact nomatch hc
      | some plugin =>
        rcases mem_append.1 hc with hc | hc
        · have hmark : "/?plugin=".toList.all (fun c => !isWhitespace c && c != '#') = true := by decide
          have hplain := all_eq_true.1 hmark c hc
          rw [and_eq_true, not_eq_true', bne_iff_ne] at hplain
          exact hplain
        · exact plugin.plain c hc

/-- A link has no blanks. -/
theorem trim_text (link : Link) : trim link.text = link.text := by
  refine trim_of_forall fun c hc => ?_
  rw [Link.text, mem_append, mem_append] at hc
  rcases hc with hc | hc | hc
  · have hscheme : "ss://".toList.all (!isWhitespace ·) = true := by decide
    have hplain := all_eq_true.1 hscheme c hc
    rwa [not_eq_true'] at hplain
  · exact (body_plain link c hc).1
  · rw [Link.fragmentText] at hc
    split at hc
    · exact nomatch hc
    · rename_i tag htag
      rcases mem_cons.1 hc with rfl | hc
      · decide
      · exact isWhitespace_of_graphic (fragment_plain tag.writes c hc)

/-!
# Which Shadowsocks links are read as they are written

Reference: `src-tauri/src/sockscap/core/share_link.rs`.
-/

open Base64 (Engine decode_encode decode_agree)
open HostField (rsplitOnce_append rsplitOnce_eq_none)

/-! ## Base64 -/

theorem mem_engines (e : Engine) : e ∈ engines := by
  obtain ⟨urlSafe, padded⟩ := e
  cases urlSafe <;> cases padded <;> decide

/-- Whichever engine wrote it, a text in base64 is read back. -/
theorem b64DecodeLoose_encode (e : Engine) (bytes : Bytes) : b64DecodeLoose (e.encode bytes) = .ok bytes := by
  have htrim : trim (e.encode bytes) = e.encode bytes := trim_of_forall fun c hc => (encode_plain e bytes c hc).1
  rw [b64DecodeLoose, htrim]
  cases hfound : engines.findSome? fun engine => engine.decode (e.encode bytes) with
  | none =>
    have hnone := List.findSome?_eq_none_iff.1 hfound e (mem_engines e)
    rw [decode_encode] at hnone
    exact nomatch hnone
  | some bytes' =>
    obtain ⟨engine, -, hengine⟩ := exists_of_findSome?_eq_some hfound
    rw [decode_agree hengine (decode_encode e bytes)]

theorem b64Text_encode (e : Engine) (s : Text) : b64Text (e.encode (textBytes s)) = some s := by
  rw [b64Text, b64DecodeLoose_encode, Except.toOption, bind_some, textOfBytes_textBytes]

variable {s : Text}

/-- A text with a colon is not in base64. -/
theorem b64Text_eq_none (h : ':' ∈ s) : b64Text s = none := by
  have hmem : ':' ∈ trim s := by
    rw [trim]
    refine mem_rdropWhile ?_ (by decide)
    rw [← takeWhile_append_dropWhile (p := isWhitespace) (l := s), mem_append] at h
    exact h.resolve_left fun hlead => absurd (mem_takeWhile_imp hlead) (by decide)
  have hcolon : ∀ u : Bool, ':' ∉ Base64.alphabet u := by decide
  have hnone : (engines.findSome? fun engine => engine.decode (trim s)) = none :=
    List.findSome?_eq_none_iff.2 fun engine _ => Base64.decode_eq_none hmem (hcolon engine.urlSafe) (by decide)
  rw [b64Text, b64DecodeLoose, hnone]
  rfl

theorem b64Text_nil (h : trim s = []) : b64Text s = some [] := by
  have hfound : (engines.findSome? fun engine => engine.decode (trim s)) = some [] := by
    rw [h, engines, findSome?_cons, Base64.decode_nil]
  rw [b64Text, b64DecodeLoose, hfound]
  rfl

/-! ## The parts of a link -/

theorem parseU16_toDigits (port : UInt16) : parseU16 (Nat.toDigits 10 port.toNat) = some port.toNat := by
  have hport : port.toNat < 2 ^ 16 := port.toNat_lt
  have hlimit : port.toNat < Dap.usizeLimit := by
    rw [Dap.usizeLimit]
    omega
  rw [parseU16, Dap.parseUsize_toDigits hlimit, Option.filter_some, if_pos (decide_eq_true hport)]

/-- A slash after the digits makes it no number. -/
theorem parseU16_slash (digits rest : Text) (h : ∀ c ∈ digits, c.isDigit = true) :
    parseU16 (digits ++ '/' :: rest) = none := by
  have hslash : '/' ∈ (if (digits ++ '/' :: rest).head? = some '+' then (digits ++ '/' :: rest).drop 1
      else digits ++ '/' :: rest) := by
    split
    · rename_i hplus
      cases digits with
      | nil => exact absurd (Option.some.inj hplus) (by decide)
      | cons d digits =>
        cases hplus
        exact absurd (h '+' mem_cons_self) (by decide)
    · exact mem_append_right _ mem_cons_self
  rw [parseU16, parseUsize]
  generalize (if (digits ++ '/' :: rest).head? = some '+' then (digits ++ '/' :: rest).drop 1
    else digits ++ '/' :: rest) = unsigned at hslash
  have hall : (!unsigned.all Char.isDigit) = true := by
    rw [not_eq_true', ← not_eq_true, all_eq_true]
    exact fun hall => absurd (hall '/' hslash) (by decide)
  dsimp only
  rw [if_pos hall, ite_self, Option.filter_none]

theorem trimStart_colon (h : s.head? ≠ some ':') : trimStart ':' (':' :: s) = s := by
  rw [trimStart, dropWhile_cons_of_pos (p := (· == ':')) (beq_self_eq_true ':')]
  cases s with
  | nil => rfl
  | cons c s =>
    have hc : ¬(c == ':') = true := by
      rw [beq_iff_eq]
      exact fun heq => h (congrArg some heq)
    exact dropWhile_cons_of_neg (p := (· == ':')) hc

/-- The host is split from whatever follows it. -/
theorem splitHostPort_written (s : Server) {after : Text} (hcolon : ':' ∉ after) :
    splitHostPort (s.host.written ++ ':' :: after) =
      (parseU16 after).elim (.error "invalid port".toList) fun port => .ok (s.host.address, port) := by
  cases hs : s.host with
  | name text nonempty plain =>
    have hhead : strip ['['] (text ++ ':' :: after) = none := by
      cases text with
      | nil => exact absurd rfl nonempty
      | cons c text =>
        have hc : '[' ≠ c := by
          rintro rfl
          exact (isHostChar_iff.1 (plain '[' mem_cons_self).1).2 (by decide)
        have hfront : ['['].isPrefixOf (c :: (text ++ ':' :: after)) = false := by
          rw [isPrefixOf_cons_cons, beq_eq_false_iff_ne.2 hc, Bool.false_and]
        rw [cons_append, strip, hfront, if_neg Bool.false_ne_true]
    have hempty : text.isEmpty = false := by rwa [← not_eq_true, List.isEmpty_iff]
    rw [LinkHost.written, splitHostPort, hhead]
    dsimp only
    rw [rsplitOnce_append hcolon]
    dsimp only
    rw [hempty]
    cases parseU16 after <;> rfl
  | ipv6 text plain =>
    have hbracket : ']' ∉ text := fun hmem => (isHostChar_iff.1 (plain ']' hmem)).2 (by decide)
    have hstrip : strip ['['] ('[' :: (text ++ ']' :: ':' :: after)) = some (text ++ ']' :: ':' :: after) := by
      rw [strip, if_pos (by rw [isPrefixOf_cons_cons, beq_self_eq_true, isPrefixOf_nil_left]; rfl)]
      rfl
    have hafter : trimStart ':' (':' :: after) = after :=
      trimStart_colon fun hhead => hcolon (mem_of_head? hhead)
    rw [LinkHost.written, cons_append, append_assoc, singleton_append, splitHostPort, hstrip]
    dsimp only
    rw [splitOnce_append hbracket]
    dsimp only
    rw [hafter]
    cases parseU16 after <;> rfl

theorem digits_no_colon (port : ℕ) : ':' ∉ Nat.toDigits 10 port := fun hmem => (digit_plain hmem).2 (by decide)

theorem splitHostPort_hostPort (s : Server) :
    splitHostPort s.hostPort = .ok (s.host.address, s.port.toNat) := by
  rw [Server.hostPort, splitHostPort_written s (digits_no_colon _), parseU16_toDigits, Option.elim_some]

/-- With a slash after the port there is no port. -/
theorem splitHostPort_slash (s : Server) :
    splitHostPort (s.hostPort ++ ['/']) = .error "invalid port".toList := by
  have hcolon : ':' ∉ Nat.toDigits 10 s.port.toNat ++ ['/'] := by
    rw [mem_append, not_or]
    exact ⟨digits_no_colon _, by decide⟩
  have hdigits : ∀ c ∈ Nat.toDigits 10 s.port.toNat, c.isDigit = true := fun c hc =>
    Nat.isDigit_of_mem_toDigits (by decide) (by decide) hc
  rw [Server.hostPort, append_assoc, cons_append, splitHostPort_written s hcolon,
    parseU16_slash _ [] hdigits, Option.elim_none]

theorem splitOnce_credentials (s : Server) : splitOnce ':' s.credentials = some (s.method, s.password) :=
  splitOnce_append s.method_plain s.password

/-! ## Whole links -/

theorem splitFragment_text (link : Link) : splitFragment (link.body ++ link.fragmentText) =
      (link.body, (link.tag.map fun tag => percentDecode tag.fragment).getD []) := by
  have hbody : '#' ∉ link.body := fun hmem => (body_plain link '#' hmem).2 rfl
  rw [splitFragment, Link.fragmentText]
  cases link.tag with
  | none => rw [append_nil, splitOnce_eq_none.2 hbody]; rfl
  | some tag => rw [splitOnce_append hbody]; rfl

theorem firstPiece_of_not_mem (h : c ∉ s) : firstPiece c s = s :=
  List.takeWhile_eq_self_iff.2 fun _ hd => bne_iff_ne.2 fun heq => h (heq ▸ hd)

theorem firstPiece_append (h : c ∉ s) (rest : Text) : firstPiece c (s ++ c :: rest) = s := by
  have hall : ∀ d ∈ s, (d != c) = true := fun d hd => bne_iff_ne.2 fun heq => h (heq ▸ hd)
  have hstop : ¬(c != c) = true := by rw [bne_self_eq_false]; exact Bool.false_ne_true
  rw [firstPiece, takeWhile_append_of_pos hall, takeWhile_cons_of_neg (p := (· != c)) hstop, append_nil]

theorem encode_no_mark (e : Engine) (bytes : Bytes) (hc : c ∈ ['#', '?', '@', ':']) : c ∉ e.encode bytes :=
  fun hmem => (encode_plain e bytes c hmem).2 hc

theorem hostPort_no_mark (s : Server) (hc : c ∈ ['@', '#', '?', '/']) : c ∉ s.hostPort :=
  fun hmem => (hostPort_plain s c hmem).2 hc

variable {link : Link}

theorem ssServer_legacy (hform : link.form = .legacy) : ssServer (firstPiece '?' link.body) =
      .ok (link.server.method, link.server.password, link.server.host.address, link.server.port.toNat) := by
  have hbody : link.body = link.engine.encode (textBytes (link.server.credentials ++ '@' :: link.server.hostPort)) := by
    rw [Link.body, hform]
  have hquery : '?' ∉ link.body := by
    rw [hbody]
    exact encode_no_mark _ _ (by decide)
  have hat : '@' ∉ link.body := by
    rw [hbody]
    exact encode_no_mark _ _ (by decide)
  have hhost : '@' ∉ link.server.hostPort := hostPort_no_mark _ (by decide)
  rw [firstPiece_of_not_mem hquery, ssServer, rsplitOnce_eq_none hat]
  dsimp only
  rw [hbody, b64Text_encode]
  dsimp only
  rw [rsplitOnce_append hhost]
  dsimp only
  rw [splitOnce_credentials, splitHostPort_hostPort]
  rfl

/-- The credentials and the server, read on their own. -/
theorem ssServer_split {hostPort : Text} (hat : '@' ∉ hostPort) :
    ssServer (link.engine.encode (textBytes link.server.credentials) ++ '@' :: hostPort) =
      (splitHostPort hostPort).map fun (h, port) => (link.server.method, link.server.password, h, port) := by
  rw [ssServer, rsplitOnce_append hat]
  dsimp only
  rw [b64Text_encode, getD_some, splitOnce_credentials]

theorem sip002_no_query {hostPort : Text} (hquery : '?' ∉ hostPort) :
    '?' ∉ link.engine.encode (textBytes link.server.credentials) ++ '@' :: hostPort := by
  have hencode : '?' ∉ link.engine.encode (textBytes link.server.credentials) := encode_no_mark _ _ (by decide)
  have hmark : '?' ≠ '@' := by decide
  rw [mem_append, mem_cons, not_or, not_or]
  exact ⟨hencode, hmark, hquery⟩

theorem body_sip002 {plugin : Option Plugin} (hform : link.form = .sip002 plugin) :
    link.body = link.engine.encode (textBytes link.server.credentials) ++
      '@' :: (link.server.hostPort ++ pluginText plugin) := by
  rw [Link.body, hform]

theorem ssServer_sip002 (hform : link.form = .sip002 none) : ssServer (firstPiece '?' link.body) =
      .ok (link.server.method, link.server.password, link.server.host.address, link.server.port.toNat) := by
  have hquery : '?' ∉ link.server.hostPort := hostPort_no_mark _ (by decide)
  have hat : '@' ∉ link.server.hostPort := hostPort_no_mark _ (by decide)
  have hbody : link.body =
      link.engine.encode (textBytes link.server.credentials) ++ '@' :: link.server.hostPort := by
    have hnone : pluginText none = [] := rfl
    rw [body_sip002 hform, hnone, append_nil]
  rw [hbody, firstPiece_of_not_mem (sip002_no_query hquery), ssServer_split hat, splitHostPort_hostPort]
  rfl

/-- The query of a plugin is cut off without its slash. -/
theorem ssServer_plugin {plugin : Plugin} (hform : link.form = .sip002 (some plugin)) :
    ssServer (firstPiece '?' link.body) = .error "invalid port".toList := by
  have hquery : '?' ∉ link.server.hostPort ++ ['/'] := by
    rw [mem_append, not_or]
    exact ⟨hostPort_no_mark _ (by decide), by decide⟩
  have hat : '@' ∉ link.server.hostPort ++ ['/'] := by
    rw [mem_append, not_or]
    exact ⟨hostPort_no_mark _ (by decide), by decide⟩
  have hbody : link.body = (link.engine.encode (textBytes link.server.credentials) ++
      '@' :: (link.server.hostPort ++ ['/'])) ++ '?' :: ("plugin=".toList ++ plugin.text) := by
    have hmark : pluginText (some plugin) = ['/'] ++ '?' :: ("plugin=".toList ++ plugin.text) := rfl
    rw [body_sip002 hform, hmark]
    simp only [append_assoc, cons_append, nil_append]
  rw [hbody, firstPiece_append (sip002_no_query hquery), ssServer_split hat, splitHostPort_slash]
  rfl

/-- The server in the body of a link without a plugin. -/
theorem ssServer_body (h : ∀ plugin, link.form ≠ .sip002 (some plugin)) :
    ssServer (firstPiece '?' link.body) =
      .ok (link.server.method, link.server.password, link.server.host.address, link.server.port.toNat) := by
  cases hform : link.form with
  | legacy => exact ssServer_legacy hform
  | sip002 plugin =>
    cases plugin with
    | none => exact ssServer_sip002 hform
    | some plugin => exact absurd hform (h plugin)

theorem strip_append (lead rest : Text) : strip lead (lead ++ rest) = some rest := by
  rw [strip, if_pos (List.isPrefixOf_iff_prefix.2 (prefix_append lead rest)), drop_left]

section

variable (fromStr : FromStr)

theorem parse_text (link : Link) : parse fromStr link.text = parseSs (link.body ++ link.fragmentText) := by
  rw [parse, trim_text, Link.text, strip_append]

theorem parse_plugin {plugin : Plugin} (hform : link.form = .sip002 (some plugin)) :
    parse fromStr link.text = .error "invalid port".toList := by
  rw [parse_text, parseSs, splitFragment_text, ssServer_plugin hform]
  rfl

/-- What is read of a link without a plugin differs from what it says in the name at most. -/
theorem parse_text_of_no_plugin (h : ∀ plugin, link.form ≠ .sip002 (some plugin)) :
    parse fromStr link.text =
      .ok { link.parsed with name := (link.tag.map fun tag => percentDecode tag.fragment).getD [] } := by
  rw [parse_text, parseSs, splitFragment_text, ssServer_body h]
  dsimp only [Except.map, Link.parsed]

/-- A link says again what it was made of exactly when it is plain. -/
theorem parse_eq_parsed_iff (link : Link) : parse fromStr link.text = .ok link.parsed ↔ link.IsPlain := by
  by_cases hplugin : ∀ plugin, link.form ≠ .sip002 (some plugin)
  · have hname : parse fromStr link.text = .ok link.parsed ↔
        (link.tag.map fun tag => percentDecode tag.fragment).getD [] = (link.tag.map LinkTag.tag).getD [] := by
      rw [parse_text_of_no_plugin fromStr hplugin]
      constructor
      · exact fun h => congrArg ParsedShareLink.name (Except.ok.inj h)
      · intro h
        rw [h]
        dsimp only [Link.parsed]
    rw [hname, Link.IsPlain, and_iff_right hplugin]
    cases link.tag with
    | none => exact iff_of_true rfl (fun tag h => nomatch h)
    | some tag =>
      rw [map_some, map_some, getD_some, getD_some, percentDecode_eq_iff]
      exact ⟨fun h other heq => Option.some.inj heq ▸ h, fun h => h tag rfl⟩
  · refine iff_of_false ?_ (fun h => hplugin h.1)
    obtain ⟨plugin, hform⟩ := not_forall_not.1 hplugin
    rw [parse_plugin fromStr hform]
    exact fun h => nomatch h

/-! ## Subscriptions -/

theorem mem_of_mem_splitOn {sep : Char} {piece : Text} (hpiece : piece ∈ s.splitOn sep) (hc : c ∈ piece) :
    c ∈ s := by
  induction hlength : s.length using Nat.strong_induction_on generalizing s with
  | _ length ih =>
    by_cases hsep : sep ∈ s
    · obtain ⟨front, back, rfl, hfront⟩ := eq_append_cons_of_mem hsep
      rw [splitOn_append_cons_self_of_not_mem hfront] at hpiece
      rw [length_append, length_cons] at hlength
      rw [mem_append, mem_cons]
      rcases mem_cons.1 hpiece with rfl | hpiece
      · exact Or.inl hc
      · exact Or.inr (Or.inr (ih back.length (by omega) hpiece rfl))
    · rw [splitOn_eq_singleton hsep] at hpiece
      rwa [mem_singleton.1 hpiece] at hc

theorem mem_of_mem_textLines {line : Text} (hline : line ∈ textLines s) (hc : c ∈ line) : c ∈ s := by
  rw [textLines, mem_append, mem_map, mem_filter, Option.mem_toList] at hline
  rcases hline with ⟨piece, hpiece, rfl⟩ | ⟨hlast, -⟩
  · have hmem : c ∈ piece := by
      rw [stripReturn] at hc
      split at hc
      · exact mem_of_mem_dropLast hc
      · exact hc
    exact mem_of_mem_splitOn (mem_of_mem_dropLast hpiece) hmem
  · exact mem_of_mem_splitOn (mem_of_getLast? hlast) hc

theorem trim_of_blank (h : ∀ c ∈ s, isWhitespace c = true) : trim s = [] := by
  rw [trim, List.dropWhile_eq_nil_iff.2 h, rdropWhile_nil]

/-- Blank lines are no links. -/
theorem lines_blank (h : ∀ c ∈ s, isWhitespace c = true) :
    ((textLines s).map trim).filter (fun l => !l.isEmpty) = [] := by
  rw [filter_eq_nil_iff]
  intro l hl
  obtain ⟨line, hline, rfl⟩ := mem_map.1 hl
  rw [trim_of_blank fun c hc => h c (mem_of_mem_textLines hline hc)]
  exact Bool.false_ne_true

/-- A subscription in base64 has the links of its text. -/
theorem parseSubscription_encode (e : Engine) {text : Text} (h : IsLinkText text) :
    parseSubscription fromStr (e.encode (textBytes text)) = parseSubscription fromStr text := by
  rw [parseSubscription, b64Text_encode, getD_some, parseSubscription]
  rcases h with hblank | hcolon
  · have hnone : ((textLines []).map trim).filter (fun l => !l.isEmpty) = [] := lines_blank fun c hc => nomatch hc
    rw [b64Text_nil (trim_of_blank hblank), getD_some, lines_blank hblank, hnone]
  · rw [b64Text_eq_none hcolon, Option.getD_none]

/-! ## Both halves -/

end

/-- A server at an IPv4 address. -/
def exampleServer : Server where
  method := "aes-256-gcm".toList
  method_plain := by decide
  password := "pass123".toList
  host := .name "1.2.3.4".toList (by decide) (forall_mem_of_all (by decide))
  port := 8388

/-- `My%20Node`. -/
def exampleTag : LinkTag where
  tag := "My Node".toList
  fragment := "My%20Node".toList
  writes := by
    have hnode : WritesTag "Node".toList "Node".toList :=
      .plain (by decide) (.plain (by decide) (.plain (by decide) (.plain (by decide) .nil)))
    have hblank : EscapesBytes ['%', '2', '0'] (String.utf8EncodeChar ' ') :=
      .cons (show IpAddr.toDigit 16 '2' = some 2 by decide) (show IpAddr.toDigit 16 '0' = some 0 by decide) .nil
    exact .plain (by decide) (.plain (by decide) (.escaped hblank hnode))

def exampleLink (plugin : Option Plugin) : Link := ⟨exampleServer, ⟨false, true⟩, .sip002 plugin, some exampleTag⟩

/-- A JSON reader for texts that are no JSON. -/
def noJson : FromStr := fun _ => .error "expected value at line 1 column 1".toList

end Taomni.Sockscap.ShareLink
