import GoMesi.Go.NetIP
import GoMesi.Mesi.Operations

/-!
# SSRF protection

`ssrf.go` and `ssrf_dialer.go`: which hosts may be requested, which addresses the dialer of the
default transport refuses, and the fingerprint of the policy that is part of every cache key.

Packages `net` and `net/url` are given functions (`NetLib`).
-/

namespace GoMesi

open Strings

/-- What the code takes from packages `net`, `net/url` and `net/http`. -/
structure NetLib where
  /-- A `*url.URL`. -/
  URL : Type
  /-- `url.Parse`, with the text of its error. -/
  parse : Bytes → Except Bytes URL
  /-- `u.Scheme` -/
  scheme : URL → Bytes
  /-- `u.Hostname()` -/
  hostname : URL → Bytes
  /-- `u.String()` -/
  string : URL → Bytes
  /-- `u.ResolveReference(ref)` -/
  resolveReference : URL → URL → URL
  /-- The URL of the request that `http.NewRequestWithContext` makes, with the text of its error. -/
  newRequest : Bytes → Except Bytes URL
  /-- `net.SplitHostPort`, with the text of its error. -/
  splitHostPort : Bytes → Except Bytes (Bytes × Bytes)
  /-- `net.ParseIP` -/
  parseIP : Bytes → Option IP

/-! ## Errors -/

/-- `ErrInvalidURL` with more text. -/
def errInvalidURL (text : Bytes) : GoError := ⟨some .invalidURL, lit "invalid url: " ++ text⟩

/-- `ErrSSRFBlocked` with more text. -/
def errSSRFBlocked (text : Bytes) : GoError := ⟨some .ssrfBlocked, lit "ssrf blocked: " ++ text⟩

/-! ## Hosts -/

/-- `hostMatches` -/
def hostMatches (U : Unicode) (host allowedHost : Bytes) : Bool :=
  let host := trimSuffix host (lit ".")
  let allowedHost := trimSuffix allowedHost (lit ".")
  let n := host.length - allowedHost.length
  equalFold U host allowedHost ||
    (decide (host.length > allowedHost.length) && decide (host[n - 1]? = some 0x2e) &&
      equalFold U (host.drop n) allowedHost)

/-- `hostInAllowedHosts` -/
def hostInAllowedHosts (U : Unicode) (host : Bytes) (config : FetchConfig) : Bool :=
  config.allowedHosts.any (hostMatches U host)

/-- `isURLSafe` -/
def isURLSafe (U : Unicode) (L : NetLib) (requestedURL : Bytes) (config : FetchConfig) :
    Except GoError Unit :=
  match L.parse requestedURL with
  | .error err => .error (errInvalidURL err)
  | .ok parsedURL =>
    let host := L.hostname parsedURL
    if L.scheme parsedURL = [] ∧ host = [] then .ok ()
    else if host = [] then .error (errInvalidURL (lit "url has no host"))
    else if config.allowedHosts ≠ [] ∧ ¬ config.allowedHosts.any (hostMatches U host) then
      .error (errSSRFBlocked (lit "host not in allowed list: " ++ host))
    else .ok ()

/-! ## Addresses -/

def cgnatCIDR : IPNet := .cidr [100, 64, 0, 0] 10

def benchmarkCIDR : IPNet := .cidr [198, 18, 0, 0] 15

def reserved240CIDR : IPNet := .cidr [240, 0, 0, 0] 4

def documentationCIDR : IPNet := .cidr ([0x20, 0x01, 0x0d, 0xb8] ++ List.replicate 12 0) 32

def nat64CIDR : IPNet := .cidr ([0x00, 0x64, 0xff, 0x9b] ++ List.replicate 12 0) 96

/-- `isPrivateOrReservedIP` for an address that is not nil. -/
def isPrivateOrReservedIP (ip : IP) : Bool :=
  let v4 := ip.to4
  let ip := v4.getD ip
  if ip.isLoopback || ip.isLinkLocalUnicast || ip.isLinkLocalMulticast || ip.isMulticast ||
      ip.isUnspecified || ip.isPrivate then true
  else
    match v4 with
    | some v4 => cgnatCIDR.contains v4 || benchmarkCIDR.contains v4 || reserved240CIDR.contains v4
    | none => documentationCIDR.contains ip || nat64CIDR.contains ip

/-- The `Control` function of `safeDialer`: why it refuses to dial an address. -/
def safeDialerControl (L : NetLib) (config : FetchConfig) (address : Bytes) :
    Except GoError Unit :=
  match L.splitHostPort address with
  | .error err => .error ⟨none, err⟩
  | .ok (host, _) =>
    match L.parseIP host with
    | none =>
      .error ⟨none, lit "internal error: dial address expected to be IP but got: " ++ host⟩
    | some ip =>
      if config.blockPrivateIPs && isPrivateOrReservedIP ip then
        .error (errSSRFBlocked (lit "blocked dial to private/reserved ip"))
      else .ok ()

/-! ## The fingerprint of a policy -/

/-- The digits of `base64.StdEncoding`. -/
def base64Digit (n : ℕ) : UInt8 :=
  (lit "ABCDEFGHIJKLMNOPQRSTUVWXYZabcdefghijklmnopqrstuvwxyz0123456789+/").getD n 0

/-- `base64.StdEncoding.EncodeToString` -/
def base64 : Bytes → Bytes
  | a :: b :: c :: rest =>
    let n := a.toNat * 65536 + b.toNat * 256 + c.toNat
    [base64Digit (n / 262144), base64Digit (n / 4096 % 64), base64Digit (n / 64 % 64),
      base64Digit (n % 64)] ++ base64 rest
  | [a, b] =>
    let n := a.toNat * 256 + b.toNat
    [base64Digit (n / 1024), base64Digit (n / 16 % 64), base64Digit (n % 16 * 4)] ++ lit "="
  | [a] => [base64Digit (a.toNat / 4), base64Digit (a.toNat % 4 * 16)] ++ lit "=="
  | [] => []

/-- `json.Marshal` of a list of byte slices that is not nil. -/
def marshalByteSlices (hosts : List Bytes) : Bytes :=
  lit "[" ++ (lit ",").intercalate (hosts.map fun h ↦ lit "\"" ++ base64 h ++ lit "\"") ++ lit "]"

/-- A host as the fingerprint has it: without one trailing dot, and in lower case if it is ASCII. -/
def normalizeHost (h : Bytes) : Bytes :=
  let h := trimSuffix h (lit ".")
  if isASCII h then h.map asciiLower else h

/-- The verb `%t`. -/
def formatBool (b : Bool) : Bytes := if b then lit "true" else lit "false"

/-- `securityPolicyFingerprint` -/
def securityPolicyFingerprint (config : FetchConfig) : Bytes :=
  let hosts := (config.allowedHosts.map normalizeHost).dedup
  let hosts := hosts.insertionSort fun x y ↦ x ≤ y
  lit "|ssrf=ah:" ++ marshalByteSlices hosts ++ lit ",bpi:" ++ formatBool config.blockPrivateIPs ++
    lit ",api4ah:" ++ formatBool config.allowPrivateIPsForAllowedHosts ++
    lit ",hc:" ++ formatBool config.httpClient.isSome

end GoMesi
