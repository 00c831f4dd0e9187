import GoMesi.Interleaving.Prog
import GoMesi.Mesi.Ssrf

/-!
# A single fetch

`singleFetchUrlWithContext` and the functions it is made of, as a program. Its operations are what
it does to the semaphore, the cache and the in-flight locks, the connections it makes and the
requests it sends. How these are answered, and what other fetches do in between, is left to the
world it runs in.

Every `defer` of the source is written out at the exits it covers, in the order in which the
language runs them.
-/

namespace GoMesi

open Strings Interleaving

/-! ## Operations -/

/-- An `*inflightLock`, by the order of allocation. -/
abbrev LockId := ℕ

/-- What `Cache.Get` returns. -/
structure CacheAnswer where
  val : Bytes
  ok : Bool
  err : Bool
  deriving DecidableEq, Repr

/-- An `*http.Response`. Reading its body gives `body` and then the end of it, or an error. -/
structure HttpResponse where
  status : ℕ
  header : Header
  body : Bytes
  readErr : Option Bytes := none

/-- The operations of a fetch. Where the context may end a wait, the text of its error is the
answer then. -/
inductive FetchOp
  /-- Send to the semaphore. -/
  | acquireSemaphore (semaphore : Semaphore)
  /-- Receive from the semaphore. -/
  | releaseSemaphore (semaphore : Semaphore)
  | cacheGet (key : Bytes)
  | cacheSet (key value : Bytes) (ttl : Duration)
  | acquireInflightLock (key : Bytes)
  | releaseInflightLock (key : Bytes) (lock : LockId)
  /-- Send to the channel of a lock. -/
  | sendSlot (lock : LockId)
  /-- Receive from the channel of a lock. -/
  | drainSlot (lock : LockId)
  /-- `fetchCtx.Err()` -/
  | ctxErr
  /-- Resolve the host of a URL. The answer is the addresses in the order they are tried in. -/
  | resolve (url : Bytes)
  /-- Connect to an address for a request to a URL. -/
  | connect (url address : Bytes)
  /-- Send the request for a URL and wait for the response. -/
  | request (url : Bytes)

/-- The operations of a fetch with their answers. -/
@[reducible] def fetchSignature : Signature where
  Op := FetchOp
  Res
    | .acquireSemaphore _ => Option Bytes
    | .releaseSemaphore _ => Unit
    | .cacheGet _ => CacheAnswer
    | .cacheSet _ _ _ => Unit
    | .acquireInflightLock _ => LockId
    | .releaseInflightLock _ _ => Unit
    | .sendSlot _ => Option Bytes
    | .drainSlot _ => Unit
    | .ctxErr => Option Bytes
    | .resolve _ => List Bytes
    | .connect _ _ => Bool
    | .request _ => Except Bytes HttpResponse

/-- A program that fetches. It has no jobs. -/
abbrev Fetch := Prog fetchSignature Unit

/-- Do one operation. -/
@[reducible] def Fetch.ask (o : FetchOp) : Fetch (fetchSignature.Res o) :=
  Prog.call (S := fetchSignature) o

/-! ## Errors -/

/-- `errors.Join(ErrUpstreamStatus, err)` -/
def joinUpstreamStatus (err : Bytes) : GoError :=
  ⟨some .upstreamStatus, lit "upstream bad status\n" ++ err⟩

/-- `errors.Join(ErrTimeBudgetExceeded, fetchCtx.Err())` -/
def joinTimeBudgetExceeded (err : Bytes) : GoError :=
  ⟨some .timeBudgetExceeded, lit "exceeded time budget\n" ++ err⟩

/-- `MaxMaxResponseSize` -/
def maxMaxResponseSize : ℤ := 2 ^ 63 - 2

/-- `validateMaxResponseSize` -/
def validateMaxResponseSize (size : ℤ) : Except GoError Unit :=
  if size ≤ maxMaxResponseSize then .ok ()
  else
    .error ⟨some .invalidMaxResponseSize,
      lit "invalid MaxResponseSize " ++ Strconv.formatInt size ++ lit ": value must be at most " ++
        Strconv.formatInt maxMaxResponseSize ++
        lit " (the fetch path reads MaxResponseSize+1 bytes to detect an over-limit body, and that bound overflows at " ++
        Strconv.formatInt (2 ^ 63 - 1) ++ lit ")"⟩

/-! ## What is fetched -/

/-- `validateFetchURL` -/
def validateFetchURL (U : Unicode) (L : NetLib) (rawURL : Bytes) (config : FetchConfig) :
    Except GoError L.URL :=
  match L.parse rawURL with
  | .error err => .error (errInvalidURL err)
  | .ok parsed =>
    if L.scheme parsed ≠ lit "http" ∧ L.scheme parsed ≠ lit "https" then
      .error (errInvalidURL (lit "invalid url scheme: " ++ L.scheme parsed))
    else
      match isURLSafe U L rawURL config with
      | .error err => .error err
      | .ok () => .ok parsed

/-- The URL to fetch for the URL of an include, once both have been validated. -/
def urlToFetch (U : Unicode) (L : NetLib) (requestedURL : Bytes) (config : FetchConfig) :
    Except GoError Bytes :=
  match L.parse requestedURL with
  | .error err => .error (errInvalidURL err)
  | .ok parsed =>
    let scheme := L.scheme parsed
    if scheme ≠ [] ∧ scheme ≠ lit "http" ∧ scheme ≠ lit "https" then
      .error (errInvalidURL (lit "invalid url scheme: " ++ scheme))
    else
      match isURLSafe U L requestedURL config with
      | .error err => .error err
      | .ok () =>
        if scheme = [] ∧ config.defaultUrl = [] then
          .error (errInvalidURL
            (lit "default url can't be empty, on relative urls: " ++ requestedURL))
        else
          let url :=
            if scheme = [] then
              trimRight config.defaultUrl 0x2f ++ lit "/" ++ trimLeft requestedURL 0x2f
            else requestedURL
          match validateFetchURL U L url config with
          | .error err => .error err
          | .ok _ => .ok url

/-- The full cache key of a URL, if there is a cache. -/
def fullCacheKey (config : FetchConfig) (url : Bytes) : Option Bytes :=
  if config.cache then
    some ((config.cacheKeyFunc.getD fun url ↦ lit "mesi:" ++ url) url ++
      securityPolicyFingerprint config)
  else none

/-! ## Requests -/

/-- The clients of `fetchClientForURL`, none of which follows redirects. -/
inductive Client
  /-- The caller's client. -/
  | shared (c : HttpClient)
  /-- A client with the default transport. -/
  | plain
  /-- A client with the transport of `NewSSRFSafeTransport`. -/
  | ssrfSafe (config : FetchConfig)

/-- `fetchClientForURL` -/
def fetchClientForURL (U : Unicode) (L : NetLib) (fetchURL : Bytes) (config : FetchConfig) :
    Client :=
  match config.httpClient with
  | some c => .shared c
  | none =>
    match L.parse fetchURL with
    | .ok parsed =>
      if config.allowPrivateIPsForAllowedHosts &&
          hostInAllowedHosts U (L.hostname parsed) config then .plain
      else .ssrfSafe config
    | .error _ => .ssrfSafe config

/-- Whether the dialer of a client connects to an address. -/
def Client.control (L : NetLib) : Client → Bytes → Except GoError Unit
  | shared c, address => if c.permits address then .ok () else .error ⟨none, c.refusal address⟩
  | plain, _ => .ok ()
  | ssrfSafe config, address => safeDialerControl L config address

/-- Try the addresses one by one until a connection is made. The answer is the first error if
there is none. -/
def dialSerial (L : NetLib) (client : Client) (url : Bytes) :
    List Bytes → Option Bytes → Fetch (Option Bytes)
  | [], firstErr => return some (firstErr.getD (lit "missing address"))
  | address :: rest, firstErr =>
    match client.control L address with
    | .error err => dialSerial L client url rest (firstErr <|> some err.text)
    | .ok () => do
      if ← Fetch.ask (.connect url address) then return none
      else dialSerial L client url rest (firstErr <|> some (lit "connection failed"))

/-- `client.Do(req)` -/
def Client.do_ (L : NetLib) (client : Client) (url : Bytes) : Fetch (Except Bytes HttpResponse) := do
  let addresses ← Fetch.ask (.resolve url)
  match ← dialSerial L client url addresses none with
  | some err => return .error err
  | none => Fetch.ask (.request url)

/-- `isRedirectStatus` -/
def isRedirectStatus (status : ℕ) : Bool :=
  status = 301 || status = 302 || status = 303 || status = 307 || status = 308

/-- `maxRedirects` -/
def maxRedirects : ℕ := 10

/-- The loop over the hops of a fetch. `left` is the number of redirects it may still follow. -/
def fetchHops (U : Unicode) (L : NetLib) (config : FetchConfig) :
    (left : ℕ) → (hopURL : Bytes) → Fetch (Except GoError HttpResponse)
  | left, hopURL =>
    match L.newRequest hopURL with
    | .error err => return .error (errInvalidURL err)
    | .ok reqURL => do
      match ← (fetchClientForURL U L hopURL config).do_ L hopURL with
      | .error err => return .error (joinUpstreamStatus err)
      | .ok content =>
        let location := content.header.get (lit "Location")
        if ¬ isRedirectStatus content.status ∨ location = [] then return .ok content
        else
          match left with
          | 0 =>
            return .error (joinUpstreamStatus
              (lit "stopped after " ++ Strconv.formatInt maxRedirects ++ lit " redirects"))
          | left + 1 =>
            match L.parse location with
            | .error _ =>
              return .error (joinUpstreamStatus (lit "invalid redirect location: " ++ location))
            | .ok ref =>
              let nextURL := L.string (L.resolveReference reqURL ref)
              match validateFetchURL U L nextURL config with
              | .error err => return .error err
              | .ok _ => fetchHops U L config left nextURL

/-! ## Responses -/

/-- `IsEsiResponse` -/
def isEsiResponse (U : Unicode) (response : HttpResponse) : Bool :=
  let header := toLower U (response.header.get (lit "Edge-control"))
  (split header 0x2c).any fun part ↦ trimSpace part = lit "dca=esi"

/-- `io.ReadAll` of a body behind a limit of `n` bytes, which is zero for a negative bound. A limit
that has been reached hides the error after it. -/
def HttpResponse.readLimited (response : HttpResponse) (n : ℕ) : Except Bytes Bytes :=
  if n ≤ response.body.length then .ok (response.body.take n)
  else
    match response.readErr with
    | some err => .error err
    | none => .ok response.body

/-- `io.ReadAll` of a body. -/
def HttpResponse.readAll (response : HttpResponse) : Except Bytes Bytes :=
  match response.readErr with
  | some err => .error err
  | none => .ok response.body

/-- Read a body up to the size cap, of which one byte more is read to tell a body at the cap from
one over it. -/
def HttpResponse.readCapped (config : FetchConfig) (response : HttpResponse) : Except GoError Bytes :=
  if config.maxResponseSize > 0 then
    match response.readLimited (wrap64 (config.maxResponseSize + 1)).toNat with
    | .error err => .error (joinUpstreamStatus err)
    | .ok data =>
      if (data.length : ℤ) > config.maxResponseSize then
        .error ⟨none, lit "response body exceeds maximum allowed size of " ++
          Strconv.formatInt config.maxResponseSize ++ lit " bytes"⟩
      else .ok data
  else
    match response.readAll with
    | .error err => .error (joinUpstreamStatus err)
    | .ok data => .ok data

/-- The data of the final response, or why there is none. -/
def HttpResponse.data (config : FetchConfig) (response : HttpResponse) : Except GoError Bytes :=
  match response.readCapped config with
  | .error err => .error err
  | .ok data =>
    if response.status ≥ 400 then
      .error ⟨some .upstreamStatus, lit "upstream bad status: upstream returned status " ++
        Strconv.formatInt response.status⟩
    else .ok data

/-! ## The fetch -/

/-- From the first request to the return: follow the hops, read the body, fill the cache. -/
def fetchUpstream (U : Unicode) (L : NetLib) (config : FetchConfig) (url : Bytes)
    (cacheKey : Option Bytes) : Fetch FetchResult := do
  match ← fetchHops U L config maxRedirects url with
  | .error err => return .error err
  | .ok content =>
    match content.data config with
    | .error err => return .error err
    | .ok data =>
      match cacheKey with
      | some key =>
        Fetch.ask (.cacheSet key data config.cacheTTL)
        return .ok (data, isEsiResponse U content)
      | none => return .ok (data, isEsiResponse U content)

/-- Fetch with the slot of the in-flight lock of `key`, unless the cache has been filled while
waiting for it. -/
def withInflightLock (key : Bytes) (fetch : Fetch FetchResult) : Fetch FetchResult := do
  let lock ← Fetch.ask (.acquireInflightLock key)
  match ← Fetch.ask (.sendSlot lock) with
  | some err =>
    Fetch.ask (.releaseInflightLock key lock)
    return .error (joinTimeBudgetExceeded err)
  | none =>
    match ← Fetch.ask .ctxErr with
    | some err =>
      Fetch.ask (.drainSlot lock)
      Fetch.ask (.releaseInflightLock key lock)
      return .error (joinTimeBudgetExceeded err)
    | none =>
      let hit ← Fetch.ask (.cacheGet key)
      if hit.ok then
        Fetch.ask (.drainSlot lock)
        Fetch.ask (.releaseInflightLock key lock)
        return .ok (hit.val, false)
      else
        let result ← fetch
        Fetch.ask (.drainSlot lock)
        Fetch.ask (.releaseInflightLock key lock)
        return result

/-- Fetch with a slot of the semaphore, if there is one. -/
def withSemaphore (config : FetchConfig) (fetch : Fetch FetchResult) : Fetch FetchResult :=
  match config.requestSemaphore with
  | none => fetch
  | some semaphore => do
    match ← Fetch.ask (.acquireSemaphore semaphore) with
    | some err => return .error (joinTimeBudgetExceeded err)
    | none =>
      let result ← fetch
      Fetch.ask (.releaseSemaphore semaphore)
      return result

/-- What a fetch does once it is admitted: the cache, the in-flight lock, the upstream. -/
def fetchAdmitted (U : Unicode) (L : NetLib) (requestedURL : Bytes) (config : FetchConfig) :
    Fetch FetchResult :=
  match urlToFetch U L requestedURL config with
  | .error err => return .error err
  | .ok url =>
    match fullCacheKey config url with
    | none => fetchUpstream U L config url none
    | some key => do
      let hit ← Fetch.ask (.cacheGet key)
      if hit.ok && !hit.err then return .ok (hit.val, false)
      else withInflightLock key (fetchUpstream U L config url (some key))

/-- `singleFetchUrlWithContext` -/
def singleFetchUrlWithContext (U : Unicode) (L : NetLib) (requestedURL : Bytes)
    (config : FetchConfig) : Fetch FetchResult :=
  if config.timeout ≤ 0 then return .error ⟨some .timeBudgetExceeded, lit "exceeded time budget"⟩
  else
    match validateMaxResponseSize config.maxResponseSize with
    | .error err => return .error err
    | .ok () => withSemaphore config (fetchAdmitted U L requestedURL config)

/-! ## Clients that dial alike -/

section

variable {U : Unicode} {L : NetLib}

/-- The dialers of two clients permit the same addresses and refuse the others with the same text. -/
def DialAlike (L : NetLib) (client client' : Client) : Prop :=
  ∀ address, (client.control L address).mapError GoError.text =
    (client'.control L address).mapError GoError.text

theorem dialSerial_congr {client client' : Client} (h : DialAlike L client client') (url : Bytes)
    (addresses : List Bytes) (firstErr : Option Bytes) :
    dialSerial L client url addresses firstErr = dialSerial L client' url addresses firstErr := by
  induction addresses generalizing firstErr with
  | nil => rfl
  | cons address rest ih =>
    have haddress := h address
    rw [dialSerial, dialSerial]
    cases hc : client.control L address with
    | ok u =>
      cases hc' : client'.control L address with
      | ok u' => simp only [ih]
      | error err => simp [hc, hc', Except.mapError] at haddress
    | error err =>
      cases hc' : client'.control L address with
      | ok u => simp [hc, hc', Except.mapError] at haddress
      | error err' =>
        have htext : err.text = err'.text := by simpa [hc, hc', Except.mapError] using haddress
        simp only [htext, ih]

theorem do_congr {client client' : Client} (h : DialAlike L client client') (url : Bytes) :
    client.do_ L url = client'.do_ L url := by
  simp only [Client.do_, dialSerial_congr h]

/-- Two configurations whose clients dial alike, and that find the same URLs valid, follow the same
hops. -/
theorem fetchHops_eq {config config' : FetchConfig}
    (hclient : ∀ url, DialAlike L (fetchClientForURL U L url config)
      (fetchClientForURL U L url config'))
    (hvalid : ∀ url, validateFetchURL U L url config = validateFetchURL U L url config')
    (left : ℕ) (url : Bytes) : fetchHops U L config left url = fetchHops U L config' left url := by
  induction left generalizing url with
  | zero =>
    rw [fetchHops, fetchHops]
    simp only [do_congr (hclient url)]
  | succ left ih =>
    rw [fetchHops, fetchHops]
    simp only [do_congr (hclient url), hvalid, ih]

end

end GoMesi
