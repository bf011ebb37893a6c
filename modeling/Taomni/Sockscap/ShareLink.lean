import Taomni.Common.Base64
import Taomni.Common.IpAddr
import Taomni.Dap.Codec
import Taomni.Sockscap.Sniffing
import Taomni.Vnc.Clipboard

/-!
# Share links of proxies

Reference: `src-tauri/src/sockscap/core/share_link.rs`.

The JSON reader comes from outside the repository and is a parameter: the fields of a value, or the text of an error.
-/

namespace Taomni.Sockscap.ShareLink

open Agent (Text trim)
open Base64 (Engine)
open Dap (splitOnce parseUsize)
open Encoding (fromUtf8 utf8Bytes)
open Vnc (fromUtf8Lossy)

/-! ## Texts -/

/-- The bytes of a text. -/
def textBytes (s : Text) : Bytes := utf8Bytes (String.ofList s)

/-- `String::from_utf8`. -/
def textOfBytes (bytes : Bytes) : Option Text := (fromUtf8 bytes).map String.toList

/-- The engines, in the order in which they are tried. -/
def engines : List Engine := [⟨false, true⟩, ⟨true, true⟩, ⟨false, false⟩, ⟨true, false⟩]

/-- `b64_decode_loose`. -/
def b64DecodeLoose (s : Text) : Except Text Bytes :=
  match engines.findSome? fun engine => engine.decode (trim s) with
  | some bytes => .ok bytes
  | none => .error "invalid base64".toList

/-- The text in base64, when it is one. -/
def b64Text (s : Text) : Option Text := (b64DecodeLoose s).toOption.bind textOfBytes

/-- `(byte as char).to_digit(16)`. -/
def hexDigit (byte : UInt8) : Option ℕ := IpAddr.toDigit 16 (Char.ofNat byte.toNat)

/-- The byte that a percent sign and two digits stand for. -/
def escapedByte : Bytes → Option UInt8
  | 0x25 :: high :: low :: _ =>
    (hexDigit high).bind fun h => (hexDigit low).map fun l => UInt8.ofNat (h * 16 + l)
  | _ => none

/-- The loop of `percent_decode`. -/
def percentDecodeBytes : Bytes → Bytes
  | [] => []
  | byte :: bytes =>
    match escapedByte (byte :: bytes) with
    | some escaped => escaped :: percentDecodeBytes (bytes.drop 2)
    | none => (if byte = 0x2B then 0x20 else byte) :: percentDecodeBytes bytes
termination_by bytes => bytes.length
decreasing_by
  · rw [List.length_drop, List.length_cons]
    omega
  · exact Nat.lt_succ_self _

def percentDecode (s : Text) : Text := (fromUtf8Lossy (percentDecodeBytes (textBytes s))).toList

/-- `str::parse::<u16>`. -/
def parseU16 (s : Text) : Option ℕ := (parseUsize s).filter (· < 2 ^ 16)

/-- `split_host_port`. -/
def splitHostPort (hp : Text) : Except Text (Text × ℕ) :=
  match strip ['['] hp with
  | some stripped =>
    match splitOnce ']' stripped with
    | none => .error "malformed IPv6 host".toList
    | some (h, rest) =>
      match parseU16 (trimStart ':' rest) with
      | none => .error "invalid port".toList
      | some port => .ok (h, port)
  | none =>
    match rsplitOnce ':' hp with
    | none => .error "missing host:port".toList
    | some (h, p) =>
      match parseU16 p with
      | none => .error "invalid port".toList
      | some port => if h.isEmpty then .error "empty host".toList else .ok (h, port)

/-! ## Links -/

/-- `UpstreamParams`, with the fields that links set. -/
structure UpstreamParams where
  method : Text := []
  security : Text := []
  flow : Text := []
  encryption : Text := []
  network : Text := []
  path : Text := []
  wsHost : Text := []
  tls : Text := []
  sni : Text := []
  fingerprint : Text := []
  allowInsecure : Bool := false
  realityPublicKey : Text := []
  realityShortId : Text := []
deriving DecidableEq

structure ParsedShareLink where
  kindTag : Text
  name : Text
  host : Text
  port : ℕ
  params : UpstreamParams
  secret : Text
  uuid : Text
deriving DecidableEq

/-- What stands before a mark, and the decoded text after it. -/
def splitFragment (rest : Text) : Text × Text :=
  match splitOnce '#' rest with
  | some (a, b) => (a, percentDecode b)
  | none => (rest, [])

/-- The method, the password, the host and the port of a Shadowsocks link. -/
def ssServer (body : Text) : Except Text (Text × Text × Text × ℕ) :=
  match rsplitOnce '@' body with
  | some (userinfo, hostport) =>
    match splitOnce ':' ((b64Text userinfo).getD (percentDecode userinfo)) with
    | none => .error "ss userinfo not method:password".toList
    | some (m, p) => (splitHostPort hostport).map fun (h, port) => (m, p, h, port)
  | none =>
    match b64Text body with
    | none => .error "ss legacy body not base64".toList
    | some decoded =>
      match rsplitOnce '@' decoded with
      | none => .error "ss legacy missing @host:port".toList
      | some (creds, hostport) =>
        match splitOnce ':' creds with
        | none => .error "ss legacy creds not method:password".toList
        | some (m, p) => (splitHostPort hostport).map fun (h, port) => (m, p, h, port)

/-- `parse_ss`. -/
def parseSs (rest : Text) : Except Text ParsedShareLink :=
  (ssServer (firstPiece '?' (splitFragment rest).1)).map fun (method, password, host, port) =>
    ⟨"shadowsocks".toList, (splitFragment rest).2, host, port, { method := method }, password, []⟩

/-! ### Links in the form of a URL -/

structure UrlParts where
  userinfo : Text
  host : Text
  port : ℕ
  /-- The last value of each key. -/
  query : Text → Option Text
  fragment : Text

/-- The pairs of a query; a later one replaces an earlier one of its key. -/
def queryOf (query : Text) : Text → Option Text :=
  ((query.splitOn '&').filter fun pair => !pair.isEmpty).foldl (fun known pair =>
    let (key, value) := (splitOnce '=' pair).getD (pair, [])
    fun other => if other = key then some (percentDecode value) else known other) fun _ => none

/-- `parse_url_shaped`. -/
def parseUrlShaped (rest : Text) : Except Text UrlParts :=
  let (beforeFragment, fragment) := splitFragment rest
  let (beforeQuery, query) := (splitOnce '?' beforeFragment).getD (beforeFragment, [])
  let (userinfo, hostport) := (rsplitOnce '@' beforeQuery).getD ([], beforeQuery)
  (splitHostPort hostport).map fun (host, port) => ⟨userinfo, host, port, queryOf query, fragment⟩

/-- A value, unless it is empty. -/
def orKeep (value old : Text) : Text := if value.isEmpty then old else value

/-- `transport_from_query`. -/
def transportFromQuery (q : Text → Option Text) (params : UpstreamParams) : UpstreamParams :=
  let get (key : String) : Text := (q key.toList).getD []
  { params with
    network := orKeep (get "type") params.network
    tls := orKeep (get "security") params.tls
    sni := orKeep (orKeep (get "sni") (get "peer")) params.sni
    path := orKeep (get "path") params.path
    wsHost := orKeep (orKeep (get "host") (get "serviceName")) params.wsHost
    fingerprint := orKeep (get "fp") params.fingerprint
    realityPublicKey := orKeep (get "pbk") params.realityPublicKey
    realityShortId := orKeep (get "sid") params.realityShortId
    allowInsecure :=
      (q "allowInsecure".toList).any (fun v => v = "1".toList || v = "true".toList) || params.allowInsecure }

/-- `parse_trojan`. -/
def parseTrojan (rest : Text) : Except Text ParsedShareLink :=
  (parseUrlShaped rest).bind fun u =>
    if (percentDecode u.userinfo).isEmpty then .error "trojan link missing password".toList
    else
      .ok ⟨"trojan".toList, u.fragment, u.host, u.port, transportFromQuery u.query { tls := "tls".toList },
        percentDecode u.userinfo, []⟩

/-- `parse_vless`. -/
def parseVless (rest : Text) : Except Text ParsedShareLink :=
  (parseUrlShaped rest).bind fun u =>
    if (percentDecode u.userinfo).isEmpty then .error "vless link missing uuid".toList
    else
      let params : UpstreamParams :=
        { encryption := orKeep ((u.query "encryption".toList).getD []) "none".toList
          flow := (u.query "flow".toList).getD [] }
      .ok ⟨"vless".toList, u.fragment, u.host, u.port, transportFromQuery u.query params, [],
        percentDecode u.userinfo⟩

/-! ### Links with JSON -/

/-- A field of a JSON value; a number with its text. -/
inductive JsonField where
  | string (s : Text)
  | number (s : Text)
  | other

/-- `serde_json::from_str`, with `Value::get`. -/
abbrev FromStr := Text → Except Text (Text → Option JsonField)

def JsonField.asStr : Option JsonField → Text
  | some (.string s) => s
  | _ => []

def JsonField.asNumber : Option JsonField → Text
  | some (.string s) => s
  | some (.number s) => s
  | _ => []

section

variable (fromStr : FromStr)

/-- `parse_vmess`. -/
def parseVmess (rest : Text) : Except Text ParsedShareLink :=
  match b64Text rest with
  | none => .error "vmess body not base64 json".toList
  | some json =>
    match fromStr json with
    | .error e => .error ("vmess json: ".toList ++ e)
    | .ok v =>
      let s (key : String) : Text := JsonField.asStr (v key.toList)
      match parseU16 (JsonField.asNumber (v "port".toList)) with
      | none => .error "vmess bad port".toList
      | some port =>
        if (s "id").isEmpty then .error "vmess missing id".toList
        else
          .ok ⟨"vmess".toList, s "ps", s "add", port,
            { security := orKeep (s "scy") "auto".toList, network := s "net", path := s "path", wsHost := s "host"
              tls := s "tls", sni := s "sni" }, [], s "id"⟩

/-- `parse`. -/
def parse (link : Text) : Except Text ParsedShareLink :=
  match strip "ss://".toList (trim link) with
  | some rest => parseSs rest
  | none =>
    match strip "trojan://".toList (trim link) with
    | some rest => parseTrojan rest
    | none =>
      match strip "vmess://".toList (trim link) with
      | some rest => parseVmess fromStr rest
      | none =>
        match strip "vless://".toList (trim link) with
        | some rest => parseVless rest
        | none =>
          if "ssr://".toList.isPrefixOf (trim link) then .error "ShadowsocksR is not supported".toList
          else .error "unrecognized share link scheme".toList

/-- `parse_subscription`. -/
def parseSubscription (blob : Text) : List ParsedShareLink :=
  ((textLines ((b64Text blob).getD blob)).map trim).filter (fun l => !l.isEmpty) |>.filterMap fun l =>
    (parse fromStr l).toOption

end

end Taomni.Sockscap.ShareLink
