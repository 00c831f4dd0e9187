import GoMesi.Interleaving.Ghost
import GoMesi.Mesi.Simulate

/-!
# What a fetch requests and what it connects to

A fetch goes from hop to hop, and the URL of each hop but the first comes from the upstream. Before a
URL becomes that of the next hop it is validated, and every hop chooses the client anew by its own
URL. So what is true of the first request is true of all of them, however the redirects go:
the URL is that of an allowed host (`Allowed`), and a connection for it is made to an address the
policy permits for this very URL (`Dialable`).
-/

namespace GoMesi

open Strings Interleaving

/-! ## Allowed hosts -/

/-- The host is the entry or a subdomain of it, up to case and one trailing dot on either side. -/
def HostWithin (U : Unicode) (host entry : Bytes) : Prop :=
  let host := trimSuffix host (lit ".")
  let entry := trimSuffix entry (lit ".")
  equalFold U host entry = true ∨
    ∃ sub rest, host = sub ++ lit "." ++ rest ∧ equalFold U rest entry = true

private theorem eq_take_append_drop {l : Bytes} {n : ℕ} {b : UInt8} (hn : 0 < n)
    (h : l[n - 1]? = some b) : l = l.take (n - 1) ++ [b] ++ l.drop n := by
  obtain ⟨m, rfl⟩ := Nat.exists_eq_add_of_le' hn
  rw [Nat.add_sub_cancel] at h ⊢
  rw [← Option.toList_some, ← h, ← List.take_add_one, List.take_append_drop]

/-- `hostMatches` looks for the dot where the entry would begin. -/
theorem hostWithin_of_hostMatches {U : Unicode} {host entry : Bytes}
    (h : hostMatches U host entry = true) : HostWithin U host entry := by
  simp only [hostMatches, Bool.or_eq_true, Bool.and_eq_true, decide_eq_true_eq] at h
  rcases h with h | ⟨⟨hlt, hdot⟩, h⟩
  · exact .inl h
  · exact .inr ⟨_, _, eq_take_append_drop (Nat.sub_pos_of_lt hlt) hdot, h⟩

/-- A URL that may be requested: over HTTP, and if there is a list of allowed hosts, from one of
them. -/
def Allowed (U : Unicode) (L : NetLib) (config : FetchConfig) (url : Bytes) : Prop :=
  ∃ parsed, L.parse url = .ok parsed ∧
    (L.scheme parsed = lit "http" ∨ L.scheme parsed = lit "https") ∧
      (config.allowedHosts ≠ [] → ∃ entry ∈ config.allowedHosts,
        HostWithin U (L.hostname parsed) entry)

variable {U : Unicode} {L : NetLib} {config : FetchConfig}

/-- With a list of allowed hosts, a URL with a scheme is safe only if its host is in the list. -/
theorem hostWithin_of_isURLSafe {url : Bytes} {parsed : L.URL} (hparse : L.parse url = .ok parsed)
    (hscheme : L.scheme parsed ≠ []) (hhosts : config.allowedHosts ≠ [])
    (h : isURLSafe U L url config = .ok ()) :
    ∃ entry ∈ config.allowedHosts, HostWithin U (L.hostname parsed) entry := by
  rw [isURLSafe, hparse] at h
  by_contra hnone
  have hany : ¬ config.allowedHosts.any (hostMatches U (L.hostname parsed)) = true := fun hany ↦ by
    obtain ⟨entry, hentry, hmatches⟩ := List.any_eq_true.mp hany
    exact hnone ⟨entry, hentry, hostWithin_of_hostMatches hmatches⟩
  simp only [hscheme, false_and, if_false] at h
  split_ifs at h with hhost hlist
  exact hlist ⟨hhosts, hany⟩

/-- What has been validated may be requested. -/
theorem allowed_of_validateFetchURL {url : Bytes} {u : L.URL}
    (h : validateFetchURL U L url config = .ok u) : Allowed U L config url := by
  rw [validateFetchURL] at h
  split at h
  · simp at h
  · rename_i parsed hparse
    split_ifs at h with hscheme
    have hhttp : L.scheme parsed = lit "http" ∨ L.scheme parsed = lit "https" := by
      by_contra hne
      exact hscheme (not_or.mp hne)
    have hne : L.scheme parsed ≠ [] := by
      rcases hhttp with hhttp | hhttp
      · rw [hhttp]
        decide
      · rw [hhttp]
        decide
    split at h
    · simp at h
    · rename_i hsafe
      exact ⟨parsed, hparse, hhttp, fun hhosts ↦ hostWithin_of_isURLSafe hparse hne hhosts hsafe⟩

theorem allowed_of_urlToFetch {requestedURL url : Bytes}
    (h : urlToFetch U L requestedURL config = .ok url) : Allowed U L config url := by
  simp only [urlToFetch] at h
  split at h
  · simp at h
  · split at h
    · simp at h
    · split at h
      · simp at h
      · split at h
        · simp at h
        · split at h
          · simp at h
          · rename_i hvalid
            cases h
            exact allowed_of_validateFetchURL hvalid

/-! ## Permitted addresses -/

/-- An address that may be connected to for a URL when private addresses are to be blocked: a
private or reserved one only for an allowed host with the opt-in. -/
def Dialable (U : Unicode) (L : NetLib) (config : FetchConfig) (url address : Bytes) : Prop :=
  ∀ host port ip, L.splitHostPort address = .ok (host, port) → L.parseIP host = some ip →
    isPrivateOrReservedIP ip = true →
      config.allowPrivateIPsForAllowedHosts = true ∧
        ∃ parsed, L.parse url = .ok parsed ∧
          ∃ entry ∈ config.allowedHosts, HostWithin U (L.hostname parsed) entry

theorem hostWithin_of_hostInAllowedHosts {host : Bytes}
    (h : hostInAllowedHosts U host config = true) :
    ∃ entry ∈ config.allowedHosts, HostWithin U host entry := by
  obtain ⟨entry, hentry, hmatches⟩ := List.any_eq_true.mp h
  exact ⟨entry, hentry, hostWithin_of_hostMatches hmatches⟩

/-- The dialer of `NewSSRFSafeTransport` refuses private and reserved addresses. -/
theorem safeDialerControl_ne_ok {address host port : Bytes} {ip : IP}
    (hblock : config.blockPrivateIPs = true) (hsplit : L.splitHostPort address = .ok (host, port))
    (hip : L.parseIP host = some ip) (hprivate : isPrivateOrReservedIP ip = true) :
    safeDialerControl L config address ≠ .ok () := by
  simp [safeDialerControl, hsplit, hip, hblock, hprivate]

/-- What the client for a URL does not refuse is permitted for this URL. -/
theorem dialable_of_control {url address : Bytes} (hclient : config.httpClient = none)
    (hblock : config.blockPrivateIPs = true)
    (h : (fetchClientForURL U L url config).control L address = .ok ()) :
    Dialable U L config url address := by
  intro host port ip hsplit hip hprivate
  have hsafe := safeDialerControl_ne_ok hblock hsplit hip hprivate
  simp only [fetchClientForURL, hclient] at h
  cases hparse : L.parse url with
  | error err =>
    rw [hparse] at h
    exact absurd h hsafe
  | ok parsed =>
    simp only [hparse, Bool.and_eq_true] at h
    split_ifs at h with hallowed
    · exact ⟨hallowed.1, parsed, rfl, hostWithin_of_hostInAllowedHosts hallowed.2⟩
    · exact absurd h hsafe

/-! ## The hops -/

/-- What is known of a fetch: the number of requests it may still make, and the URL for which it has
made a connection last. -/
structure Hops where
  left : ℕ
  connected : Option Bytes

/-- A request is for an allowed URL, and follows a connection that was made for this URL. A
connection is made to an address that may be connected to for its URL. -/
def hopGhost (U : Unicode) (L : NetLib) (config : FetchConfig) : Ghost fetchSignature Hops where
  ok
    | g, .request url => 0 < g.left ∧ g.connected = some url ∧ Allowed U L config url
    | _, .connect url address => config.httpClient = none → config.blockPrivateIPs = true →
        Dialable U L config url address
    | _, _ => True
  next
    | g, .request _, _, g' => g' = { g with left := g.left - 1 }
    | g, .connect url _, r, g' => g' = { g with connected := if r then some url else g.connected }
    | g, _, _, g' => g' = g
  fork _ _ _ _ := False

theorem walk_dialSerial {url : Bytes} (addresses : List Bytes) (firstErr : Option Bytes) (g : Hops) :
    (dialSerial L (fetchClientForURL U L url config) url addresses firstErr).Walk
      (hopGhost U L config) g fun g' err ↦
        g'.left = g.left ∧ (err = none → g'.connected = some url) := by
  induction addresses generalizing firstErr with
  | nil => exact ⟨rfl, fun h ↦ by simp at h⟩
  | cons address addresses ih =>
    rw [dialSerial]
    split
    · exact ih _
    · rename_i hcontrol
      refine ⟨fun hclient hblock ↦ dialable_of_control hclient hblock hcontrol, fun r g' hnext ↦ ?_⟩
      obtain rfl : g' = { g with connected := if r then some url else g.connected } := hnext
      cases r with
      | true => exact ⟨rfl, fun _ ↦ rfl⟩
      | false => exact ih _

theorem walk_do_ {url : Bytes} (hurl : Allowed U L config url) {g : Hops} (hleft : 0 < g.left) :
    ((fetchClientForURL U L url config).do_ L url).Walk (hopGhost U L config) g fun g' _ ↦
      g.left ≤ g'.left + 1 := by
  refine Prog.walk_bind.mpr ⟨trivial, fun addresses g₁ hnext ↦ ?_⟩
  obtain rfl : g₁ = g := hnext
  refine Prog.walk_bind.mpr ((walk_dialSerial addresses none g₁).mono fun g₂ err h ↦ ?_)
  obtain ⟨hsame, hconnected⟩ := h
  cases err with
  | some err => exact (hsame.symm.le.trans (Nat.le_succ _))
  | none =>
    refine ⟨⟨hsame ▸ hleft, hconnected rfl, hurl⟩, fun r g₃ hnext ↦ ?_⟩
    obtain rfl : g₃ = { g₂ with left := g₂.left - 1 } := hnext
    show g₁.left ≤ g₂.left - 1 + 1
    omega

/-- **The hops.** From a hop to an allowed URL on, all requests are for allowed URLs, and there are
at most `left + 1` of them. -/
theorem walk_fetchHops (left : ℕ) {hopURL : Bytes} (hurl : Allowed U L config hopURL) {g : Hops}
    (hleft : left < g.left) :
    (fetchHops U L config left hopURL).Walk (hopGhost U L config) g fun _ _ ↦ True := by
  induction left generalizing hopURL g with
  | zero =>
    rw [fetchHops]
    split
    · trivial
    · refine Prog.walk_bind.mpr ((walk_do_ hurl hleft).mono fun g' r hle ↦ ?_)
      split
      · trivial
      · dsimp only
        split_ifs <;> trivial
  | succ left ih =>
    rw [fetchHops]
    split
    · trivial
    · refine Prog.walk_bind.mpr ((walk_do_ hurl (by omega)).mono fun g' r hle ↦ ?_)
      split
      · trivial
      · dsimp only
        split_ifs
        · trivial
        · split
          · trivial
          · split
            · trivial
            · rename_i hvalid
              exact ih (allowed_of_validateFetchURL hvalid) (by omega)

theorem walk_fetchUpstream {url : Bytes} (hurl : Allowed U L config url) {g : Hops}
    (hleft : maxRedirects < g.left) (cacheKey : Option Bytes) :
    (fetchUpstream U L config url cacheKey).Walk (hopGhost U L config) g fun _ _ ↦ True := by
  refine Prog.walk_bind.mpr ((walk_fetchHops maxRedirects hurl hleft).mono fun g' r _ ↦ ?_)
  split
  · trivial
  · split
    · trivial
    · split
      · exact ⟨trivial, fun _ _ _ ↦ trivial⟩
      · trivial

theorem walk_withInflightLock {key : Bytes} {fetch : Fetch FetchResult} {g : Hops}
    (hfetch : fetch.Walk (hopGhost U L config) g fun _ _ ↦ True) :
    (withInflightLock key fetch).Walk (hopGhost U L config) g fun _ _ ↦ True := by
  refine ⟨trivial, fun lock g₁ hnext ↦ ?_⟩
  obtain rfl : g₁ = g := hnext
  refine ⟨trivial, fun err g₂ hnext ↦ ?_⟩
  obtain rfl : g₂ = g₁ := hnext
  cases err with
  | some err => exact ⟨trivial, fun _ _ _ ↦ trivial⟩
  | none =>
    refine ⟨trivial, fun err g₁ hnext ↦ ?_⟩
    obtain rfl : g₁ = g₂ := hnext
    cases err with
    | some err => exact ⟨trivial, fun _ _ _ ↦ ⟨trivial, fun _ _ _ ↦ trivial⟩⟩
    | none =>
      refine ⟨trivial, fun hit g₂ hnext ↦ ?_⟩
      obtain rfl : g₂ = g₁ := hnext
      show Prog.Walk _ (if hit.ok then _ else _) g₂ _
      split_ifs
      · exact ⟨trivial, fun _ _ _ ↦ ⟨trivial, fun _ _ _ ↦ trivial⟩⟩
      · exact Prog.walk_bind.mpr (hfetch.mono fun _ _ _ ↦
          ⟨trivial, fun _ _ _ ↦ ⟨trivial, fun _ _ _ ↦ trivial⟩⟩)

theorem walk_withSemaphore {fetch : Fetch FetchResult} {g : Hops}
    (hfetch : fetch.Walk (hopGhost U L config) g fun _ _ ↦ True) :
    (withSemaphore config fetch).Walk (hopGhost U L config) g fun _ _ ↦ True := by
  rw [withSemaphore]
  split
  · exact hfetch
  · refine ⟨trivial, fun err g₁ hnext ↦ ?_⟩
    obtain rfl : g₁ = g := hnext
    cases err with
    | some err => trivial
    | none =>
      show Prog.Walk _ (fetch.bind _) _ _
      exact Prog.walk_bind.mpr (hfetch.mono fun _ _ _ ↦ ⟨trivial, fun _ _ _ ↦ trivial⟩)

theorem walk_fetchAdmitted (requestedURL : Bytes) {g : Hops} (hleft : maxRedirects < g.left) :
    (fetchAdmitted U L requestedURL config).Walk (hopGhost U L config) g fun _ _ ↦ True := by
  rw [fetchAdmitted]
  split
  · trivial
  · rename_i url hurl
    have hallowed := allowed_of_urlToFetch hurl
    split
    · exact walk_fetchUpstream hallowed hleft none
    · rename_i key _
      refine ⟨trivial, fun hit g₁ hnext ↦ ?_⟩
      obtain rfl : g₁ = g := hnext
      show Prog.Walk _ (if hit.ok && !hit.err then _ else _) g₁ _
      split_ifs
      · trivial
      · exact walk_withInflightLock (walk_fetchUpstream hallowed hleft _)

/-- What a fetch knows before it has done anything. -/
def Hops.initial : Hops := ⟨maxRedirects + 1, none⟩

theorem walk_singleFetchUrlWithContext (requestedURL : Bytes) :
    (singleFetchUrlWithContext U L requestedURL config).Walk (hopGhost U L config) .initial
      fun _ _ ↦ True := by
  rw [singleFetchUrlWithContext]
  split_ifs
  · trivial
  · split
    · trivial
    · exact walk_withSemaphore (walk_fetchAdmitted requestedURL (Nat.lt_succ_self _))

/-! ## Runs of a fetch -/

section Runs

variable {σ : Type} {sem : (o : FetchOp) → σ → fetchSignature.Res o → σ → Prop} {env : σ → σ → Prop}

/-- The URLs that are requested, in order. -/
def requests (tr : List (Event fetchSignature σ)) : List Bytes :=
  tr.filterMap fun ev ↦
    match ev.op with
    | .request url => some url
    | _ => none

theorem mem_requests {tr : List (Event fetchSignature σ)} {url : Bytes} :
    url ∈ requests tr ↔ ∃ ev ∈ tr, ev.op = .request url := by
  refine List.mem_filterMap.trans (exists_congr fun ev ↦ and_congr_right fun _ ↦ ?_)
  cases ev.op <;> simp

/-- The events of a fetch are permitted in the order in which they come. -/
theorem trace_of_run {requestedURL : Bytes} {q : Fetch FetchResult} {s t : σ}
    {tr : List (Event fetchSignature σ)}
    (h : Run sem env (singleFetchUrlWithContext U L requestedURL config) s tr q t) :
    ∃ g, (hopGhost U L config).Trace .initial tr g := by
  have hnext : ∀ g o r, (hopGhost U L config).ok g o → ∃ g', (hopGhost U L config).next g o r g' :=
    fun g o r _ ↦ by cases o <;> exact ⟨_, rfl⟩
  obtain ⟨g, htr, -⟩ := h.trace hnext (fun _ _ _ _ hfork ↦ hfork)
    (walk_singleFetchUrlWithContext requestedURL)
  exact ⟨g, htr⟩

/-- Every request uses up one of those that are left. -/
theorem length_requests {tr : List (Event fetchSignature σ)} {g g' : Hops}
    (h : (hopGhost U L config).Trace g tr g') : (requests tr).length + g'.left = g.left := by
  induction h with
  | nil => simp [requests]
  | @cons g g₁ g₂ ev tr hok hnext _ ih =>
    obtain ⟨s, o, r⟩ := ev
    cases o with
    | request url =>
      obtain rfl : g₁ = { g with left := g.left - 1 } := hnext
      have hpos : 0 < g.left := hok.1
      simp only [requests, List.filterMap_cons, List.length_cons] at ih ⊢
      omega
    | connect url address =>
      obtain rfl : g₁ = { g with connected := if r then some url else g.connected } := hnext
      simpa [requests] using ih
    | _ =>
      obtain rfl : g₁ = g := hnext
      simpa [requests] using ih

/-- The URL for which a connection has been made last was given with a connection. -/
theorem exists_connect {tr : List (Event fetchSignature σ)} {g g' : Hops} {url : Bytes}
    (h : (hopGhost U L config).Trace g tr g') (hconnected : g'.connected = some url) :
    g.connected = some url ∨ ∃ ev ∈ tr, ∃ address, ev.op = .connect url address := by
  induction h with
  | nil => exact .inl hconnected
  | @cons g g₁ g₂ ev tr hok hnext _ ih =>
    rcases ih hconnected with hg₁ | ⟨ev', hev', hconnect⟩
    · obtain ⟨s, o, r⟩ := ev
      cases o with
      | connect url' address =>
        obtain rfl : g₁ = { g with connected := if r then some url' else g.connected } := hnext
        cases r with
        | true =>
          obtain rfl : url' = url := Option.some.inj hg₁
          exact .inr ⟨_, List.mem_cons_self, address, rfl⟩
        | false => exact .inl hg₁
      | request url' =>
        obtain rfl : g₁ = { g with left := g.left - 1 } := hnext
        exact .inl hg₁
      | _ =>
        obtain rfl : g₁ = g := hnext
        exact .inl hg₁
    · exact .inr ⟨ev', List.mem_cons_of_mem _ hev', hconnect⟩

/-- **Allowed hosts.** Whatever the upstream and the rest of the world answer, a fetch requests only
allowed URLs, and at most 11 of them. -/
theorem requests_allowed {requestedURL : Bytes} {q : Fetch FetchResult} {s t : σ}
    {tr : List (Event fetchSignature σ)}
    (h : Run sem env (singleFetchUrlWithContext U L requestedURL config) s tr q t) :
    (∀ url ∈ requests tr, Allowed U L config url) ∧ (requests tr).length ≤ 11 := by
  obtain ⟨g, htr⟩ := trace_of_run h
  refine ⟨fun url hurl ↦ ?_, ?_⟩
  · obtain ⟨ev, hev, hop⟩ := mem_requests.mp hurl
    have hall := htr.forall (P := fun o : FetchOp ↦ ∀ url, o = .request url → Allowed U L config url)
      fun _ o hok url ho ↦ by
        subst ho
        exact hok.2.2
    exact hall ev hev url hop
  · have hlength := length_requests htr
    have hinitial : Hops.initial.left = 11 := rfl
    omega

/-- **Permitted addresses.** With the transport of the package and private addresses to be blocked,
a fetch connects only to addresses that are permitted for the URL of the hop. Every request follows
a connection that was made for its URL. -/
theorem connects_dialable {requestedURL : Bytes} (hclient : config.httpClient = none)
    (hblock : config.blockPrivateIPs = true) {q : Fetch FetchResult} {s t : σ}
    {tr : List (Event fetchSignature σ)}
    (h : Run sem env (singleFetchUrlWithContext U L requestedURL config) s tr q t) :
    (∀ ev ∈ tr, ∀ url address, ev.op = .connect url address → Dialable U L config url address) ∧
      ∀ pre ev post url, tr = pre ++ ev :: post → ev.op = .request url →
        ∃ ev' ∈ pre, ∃ address, ev'.op = .connect url address := by
  obtain ⟨g, htr⟩ := trace_of_run h
  refine ⟨fun ev hev url address hop ↦ ?_, fun pre ev post url hsplit hop ↦ ?_⟩
  · have hall := htr.forall (P := fun o : FetchOp ↦
      ∀ url address, o = .connect url address → Dialable U L config url address)
      fun _ o hok url address ho ↦ by
        subst ho
        exact hok hclient hblock
    exact hall ev hev url address hop
  · rw [hsplit] at htr
    obtain ⟨g₁, hpre, hrest⟩ := htr.of_append
    cases hrest with
    | cons hok _ _ =>
      rw [hop] at hok
      exact (exists_connect hpre hok.2.1).resolve_left (by simp [Hops.initial])

end Runs

/-! ## A fetch with a redirect -/

/-- The answers when all hosts have a private address, and the first URL redirects to the second. -/
def internalAnswer : (o : FetchOp) → fetchSignature.Res o
  | .resolve _ => [lit "10.0.0.1:80"]
  | o => upstreamAnswer [
      (lit "http://a/start", ⟨302, [⟨lit "Location", [lit "http://b.a./end"]⟩].toAList, [], none⟩),
      (lit "http://b.a./end", .ofBody (lit "text"))] o

/-- A fetch that may connect to private addresses for one host and its subdomains. -/
def internalFetch : Fetch FetchResult :=
  singleFetchUrlWithContext .ascii .simple (lit "http://a/start")
    { timeout := 1000, allowedHosts := [lit "A"], blockPrivateIPs := true,
      allowPrivateIPsForAllowedHosts := true }

/-- The fetch up to its end. -/
def internalRun : Outcome fetchSignature Unit Unit FetchResult :=
  internalFetch.exec (fun o s ↦ some (internalAnswer o, s)) (fun (_ : Empty) _ ↦ none)
    (List.replicate 6 (.job [])) ()

private theorem run_internalFetch :
    Run (fun o _ r _ ↦ r = internalAnswer o) (fun _ _ ↦ False) internalFetch () internalRun.trace
      internalRun.prog internalRun.state :=
  Prog.exec_run (fun _ _ _ _ h ↦ by cases h; rfl) (fun l ↦ l.elim) _ _ _

theorem requests_allowed_internalFetch :
    requests internalRun.trace = [lit "http://a/start", lit "http://b.a./end"] ∧
      (∀ url ∈ requests internalRun.trace, Allowed .ascii .simple
        { timeout := 1000, allowedHosts := [lit "A"], blockPrivateIPs := true,
          allowPrivateIPsForAllowedHosts := true } url) ∧
        (requests internalRun.trace).length ≤ 11 :=
  ⟨by decide +kernel, requests_allowed run_internalFetch⟩

theorem connects_dialable_internalFetch :
    (∀ ev ∈ internalRun.trace, ∀ url address, ev.op = .connect url address →
      Dialable .ascii .simple
        { timeout := 1000, allowedHosts := [lit "A"], blockPrivateIPs := true,
          allowPrivateIPsForAllowedHosts := true } url address) ∧
      ∀ pre ev post url, internalRun.trace = pre ++ ev :: post → ev.op = .request url →
        ∃ ev' ∈ pre, ∃ address, ev'.op = .connect url address :=
  connects_dialable rfl rfl run_internalFetch

end GoMesi
