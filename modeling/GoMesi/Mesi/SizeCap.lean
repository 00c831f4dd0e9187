import GoMesi.Mesi.Dedup

/-!
# The size cap

`MaxResponseSize` is enforced where a body is read from the upstream. A body that comes out of the
cache is not measured again, and the key of the cache tells security policies apart but not caps.
So a fetch stays within its cap if and only if what the cache may hold for its key does.

The cache here may lose values and fail, and between two operations of the fetch other fetches may
change it as `env` says.

A fresh body is measured by reading one byte more than the cap. The largest integer is refused as a
cap, so that this bound does not wrap around, and a body is returned whole or not at all.
-/

namespace GoMesi

open Interleaving

/-! ## The world -/

/-- The contents of a cache. -/
abbrev CacheState := Bytes → Option Bytes

/-- What the operations of a fetch do to a cache that may lose what it holds and may fail. The others
are answered in any way. -/
def sharedCacheSem : (o : FetchOp) → CacheState → fetchSignature.Res o → CacheState → Prop
  | .cacheGet key, c, r, c' => c' = c ∧ (r.ok = true → c key = some r.val)
  | .cacheSet key value _, c, _, c' => c' = c ∨ c' = Function.update c key (some value)
  | _, c, _, c' => c' = c

/-! ## Bodies from the upstream -/

variable {U : Unicode} {L : NetLib} {config : FetchConfig}

theorem length_le_of_data (hcap : 0 < config.maxResponseSize) {content : HttpResponse}
    {data : Bytes} (h : content.data config = .ok data) :
    (data.length : ℤ) ≤ config.maxResponseSize := by
  rw [HttpResponse.data] at h
  split at h
  · cases h
  · rename_i body hbody
    split_ifs at h
    cases h
    rw [HttpResponse.readCapped, if_pos hcap] at hbody
    split at hbody
    · cases hbody
    · split_ifs at hbody with hlen
      cases hbody
      exact not_lt.mp hlen

/-! ## What the fetch looks at -/

/-- A fetch that looks for `key`, if for anything. The ghost state says whether it may have changed
the cache, after which it looks no more. -/
def capGhost (cap : ℤ) (key : Option Bytes) : Ghost fetchSignature Bool where
  ok changed o := ∀ key', o = .cacheGet key' → key = some key' ∧ changed = false
  next changed
    | .cacheGet _, hit, changed' =>
      changed' = changed ∧ (hit.ok = true → (hit.val.length : ℤ) ≤ cap)
    | .cacheSet _ _ _, _, changed' => changed' = true
    | _, _, changed' => changed' = changed
  fork _ _ _ _ := False

/-- The body that is returned is within the cap. -/
def WithinCap (cap : ℤ) (result : FetchResult) : Prop :=
  ∀ body esi, result = .ok (body, esi) → (body.length : ℤ) ≤ cap

theorem withinCap_error {cap : ℤ} (err : GoError) : WithinCap cap (.error err) :=
  fun _ _ h ↦ nomatch h

theorem walk_fetchUpstream_cap (hcap : 0 < config.maxResponseSize) (url : Bytes)
    (cacheKey key : Option Bytes) :
    (fetchUpstream U L config url cacheKey).Walk (capGhost config.maxResponseSize key) false
      fun _ result ↦ WithinCap config.maxResponseSize result := by
  have hseq : (fetchHops U L config maxRedirects url).Seq IsHopOp := seq_fetchHops maxRedirects url
  have hhops := hseq.walk (γ := capGhost config.maxResponseSize key) (g := false)
    (fun o ho key' heq ↦ by subst heq; exact ho.elim)
    fun o r g' ho hnext ↦ by cases o <;> first | exact hnext | exact ho.elim
  refine Prog.walk_bind.mpr (hhops.mono fun changed r hchanged ↦ ?_)
  subst hchanged
  cases r with
  | error err => exact withinCap_error err
  | ok content =>
    dsimp only
    cases hdata : content.data config with
    | error err => exact withinCap_error err
    | ok data =>
      have hwithin : WithinCap config.maxResponseSize (.ok (data, isEsiResponse U content)) :=
        fun body esi h ↦ by cases h; exact length_le_of_data hcap hdata
      cases cacheKey with
      | some key' => exact ⟨(fun _ heq ↦ by cases heq), fun _ _ _ ↦ hwithin⟩
      | none => exact hwithin

theorem walk_withInflightLock_cap {key : Bytes} {fetch : Fetch FetchResult}
    (hfetch : fetch.Walk (capGhost config.maxResponseSize (some key)) false
      fun _ result ↦ WithinCap config.maxResponseSize result) :
    (withInflightLock key fetch).Walk (capGhost config.maxResponseSize (some key)) false
      fun _ result ↦ WithinCap config.maxResponseSize result := by
  -- what comes after the result has been found changes nothing about it
  have hleave {lock : LockId} {changed : Bool} {r : FetchResult}
      (hr : WithinCap config.maxResponseSize r) :
      (Prog.op (S := fetchSignature) (.drainSlot lock) fun _ ↦
        .op (.releaseInflightLock key lock) fun _ ↦ (.ret r : Fetch FetchResult)).Walk
          (capGhost config.maxResponseSize (some key)) changed
            fun _ result ↦ WithinCap config.maxResponseSize result :=
    ⟨(fun _ heq ↦ by cases heq), fun _ _ _ ↦ ⟨(fun _ heq ↦ by cases heq), fun _ _ _ ↦ hr⟩⟩
  refine ⟨(fun _ heq ↦ by cases heq), fun lock g₁ hnext ↦ ?_⟩
  obtain rfl : g₁ = false := hnext
  refine ⟨(fun _ heq ↦ by cases heq), fun err g₂ hnext ↦ ?_⟩
  obtain rfl : g₂ = false := hnext
  cases err with
  | some err => exact ⟨(fun _ heq ↦ by cases heq), fun _ _ _ ↦ withinCap_error _⟩
  | none =>
    refine ⟨(fun _ heq ↦ by cases heq), fun err g₃ hnext ↦ ?_⟩
    obtain rfl : g₃ = false := hnext
    cases err with
    | some err => exact hleave (withinCap_error _)
    | none =>
      refine ⟨(fun key' heq ↦ by cases heq; exact ⟨rfl, rfl⟩), fun hit g₄ hnext ↦ ?_⟩
      obtain ⟨rfl, hval⟩ : g₄ = false ∧ _ := hnext
      show Prog.Walk _ (if hit.ok then _ else _) _ _
      split_ifs with hok
      · exact hleave fun body esi h ↦ by cases h; exact hval hok
      · exact Prog.walk_bind.mpr (hfetch.mono fun _ r hr ↦ hleave hr)

theorem walk_withSemaphore_cap {key : Option Bytes} {fetch : Fetch FetchResult}
    (hfetch : fetch.Walk (capGhost config.maxResponseSize key) false
      fun _ result ↦ WithinCap config.maxResponseSize result) :
    (withSemaphore config fetch).Walk (capGhost config.maxResponseSize key) false
      fun _ result ↦ WithinCap config.maxResponseSize result := by
  rw [withSemaphore]
  split
  · exact hfetch
  · refine ⟨(fun _ heq ↦ by cases heq), fun err g₁ hnext ↦ ?_⟩
    obtain rfl : g₁ = false := hnext
    cases err with
    | some err => exact withinCap_error _
    | none =>
      show Prog.Walk _ (fetch.bind _) _ _
      exact Prog.walk_bind.mpr (hfetch.mono fun _ r hr ↦
        ⟨(fun _ heq ↦ by cases heq), fun _ _ _ ↦ hr⟩)

/-! ## The condition -/

/-- The key a fetch looks for, if it comes to that: it has a timeout, its cap is valid, its URL is
fetched and it has a cache. -/
def lookupKey (U : Unicode) (L : NetLib) (requestedURL : Bytes) (config : FetchConfig) :
    Option Bytes :=
  if config.timeout ≤ 0 ∨ maxMaxResponseSize < config.maxResponseSize then none
  else
    match urlToFetch U L requestedURL config with
    | .error _ => none
    | .ok url => fullCacheKey config url

theorem walk_singleFetchUrlWithContext_cap (hcap : 0 < config.maxResponseSize)
    (requestedURL : Bytes) :
    (singleFetchUrlWithContext U L requestedURL config).Walk
      (capGhost config.maxResponseSize (lookupKey U L requestedURL config)) false
        fun _ result ↦ WithinCap config.maxResponseSize result := by
  rw [singleFetchUrlWithContext]
  split_ifs with htimeout
  · exact withinCap_error _
  · rw [validateMaxResponseSize]
    split_ifs with hvalid
    · refine walk_withSemaphore_cap ?_
      rw [lookupKey, if_neg (not_or.mpr ⟨htimeout, not_lt.mpr hvalid⟩), fetchAdmitted]
      cases hurl : urlToFetch U L requestedURL config with
      | error err => exact withinCap_error err
      | ok url =>
        dsimp only
        cases hfull : fullCacheKey config url with
        | none => exact walk_fetchUpstream_cap hcap url none none
        | some key =>
          refine ⟨(fun key' heq ↦ by cases heq; exact ⟨rfl, rfl⟩), fun hit g₁ hnext ↦ ?_⟩
          obtain ⟨rfl, hval⟩ : g₁ = false ∧ _ := hnext
          show Prog.Walk _ (if hit.ok && !hit.err then _ else _) _ _
          split_ifs with hok
          · exact fun body esi h ↦ by
              cases h
              exact hval (Bool.and_eq_true_iff.mp hok).1
          · exact walk_withInflightLock_cap (walk_fetchUpstream_cap hcap url (some key) (some key))
    · exact withinCap_error _

/-- A fetch that looks for a key returns what it finds. -/
theorem exists_run_of_lookupKey {requestedURL key value : Bytes}
    (hkey : lookupKey U L requestedURL config = some key) {env : CacheState → CacheState → Prop}
    {c c' : CacheState} (hc : Relation.ReflTransGen env c c') (hvalue : c' key = some value) :
    ∃ tr, Run sharedCacheSem env (singleFetchUrlWithContext U L requestedURL config) c tr
      (.ret (.ok (value, false))) c' := by
  rw [lookupKey] at hkey
  split_ifs at hkey with hskip
  obtain ⟨htimeout, hvalid⟩ := not_or.mp hskip
  cases hurl : urlToFetch U L requestedURL config with
  | error err => simp [hurl] at hkey
  | ok url =>
    simp only [hurl] at hkey
    have hget (k : CacheAnswer → Fetch FetchResult) : Run (S := fetchSignature) sharedCacheSem env
        (.op (.cacheGet key) k) c [⟨c', .cacheGet key, ⟨value, true, false⟩⟩]
          (k ⟨value, true, false⟩) c' :=
      .of_env hc (.step (.op ⟨rfl, fun _ ↦ hvalue⟩) .refl)
    rw [singleFetchUrlWithContext, if_neg htimeout, validateMaxResponseSize,
      if_pos (not_lt.mp hvalid)]
    dsimp only
    rw [withSemaphore, fetchAdmitted, hurl]
    dsimp only
    rw [hkey]
    cases config.requestSemaphore with
    | none => exact ⟨_, hget _⟩
    | some semaphore =>
      have hacquire : sharedCacheSem (.acquireSemaphore semaphore) c none c := rfl
      have hrelease : sharedCacheSem (.releaseSemaphore semaphore) c' () c' := rfl
      exact ⟨_, .step (.op hacquire) ((hget _).trans (.step (.op hrelease) .refl))⟩

/-- **The size cap.** A fetch with a cap never returns a longer body if and only if the cache never
holds a longer one for its key. -/
theorem withinCap_iff (hcap : 0 < config.maxResponseSize) (requestedURL : Bytes)
    (env : CacheState → CacheState → Prop) (c : CacheState) :
    (∀ tr result t, Run sharedCacheSem env (singleFetchUrlWithContext U L requestedURL config) c tr
      (.ret result) t → WithinCap config.maxResponseSize result) ↔
    ∀ key, lookupKey U L requestedURL config = some key → ∀ c', Relation.ReflTransGen env c c' →
      ∀ value, c' key = some value → (value.length : ℤ) ≤ config.maxResponseSize := by
  refine ⟨fun h key hkey c' hc value hvalue ↦ ?_, fun h tr result t hrun ↦ ?_⟩
  · obtain ⟨tr, hrun⟩ := exists_run_of_lookupKey hkey hc hvalue
    exact h tr _ c' hrun value false rfl
  · let γ := capGhost config.maxResponseSize (lookupKey U L requestedURL config)
    have T : Tracks γ sharedCacheSem env (fun changed c' ↦ changed = false →
        Relation.ReflTransGen env c c') fun _ ↦ False := by
      refine ⟨fun {changed o s r s'} hR hok hsem ↦ ?_, fun h ↦ h.elim, fun henv _ hR hchanged ↦
        (hR hchanged).tail henv, fun _ h ↦ h.elim⟩
      cases o with
      | cacheGet key =>
        obtain ⟨hkey, rfl⟩ := hok key rfl
        obtain ⟨rfl, hval⟩ := hsem
        exact ⟨false, ⟨rfl, fun hhit ↦ h key hkey _ (hR rfl) _ (hval hhit)⟩, hR, id⟩
      | cacheSet key value ttl => exact ⟨true, rfl, by simp, id⟩
      | _ =>
        obtain rfl : s' = s := hsem
        exact ⟨changed, rfl, hR, id⟩
    obtain ⟨⟨-, -, -, hresult⟩, -⟩ := hrun.ghost T
      ((walk_singleFetchUrlWithContext_cap hcap requestedURL).live T (fun _ ↦ .refl) (by simp))
    exact hresult

theorem withinCap_iff_text :
    (0 : ℤ) < 8 ∧ ∀ tr result t, Run (S := fetchSignature) sharedCacheSem (fun _ _ ↦ False)
      (singleFetchUrlWithContext .ascii .simple (lit "http://a/1")
        { timeout := 1000, cache := true, maxResponseSize := 8 }) (fun _ ↦ some (lit "text")) tr
      (.ret result) t → WithinCap 8 result := by
  have hcap : 0 < FetchConfig.maxResponseSize
      { timeout := 1000, cache := true, maxResponseSize := 8 } := by decide
  refine ⟨by decide, (withinCap_iff hcap (lit "http://a/1") (fun _ _ ↦ False)
    fun _ ↦ some (lit "text")).mpr fun key _ c' hc value hvalue ↦ ?_⟩
  obtain rfl | ⟨_, _, hfalse⟩ := Relation.ReflTransGen.cases_tail hc
  · cases hvalue
    decide
  · exact hfalse.elim

/-! ## Two caps -/

/-- A configuration without a cap, and one with a cap of two bytes. -/
def cappedConfig (capped : Bool) : FetchConfig :=
  { timeout := 1000, cache := true, maxResponseSize := if capped then 2 else 0 }

/-- A fetch without a cap, and then one of the same URL with a cap of two bytes. -/
def cappedFetch : List (Bool × Event fetchSignature CachedLocks) × (Bool → Fetch FetchResult) ×
    CachedLocks :=
  poolExec CachedLocks.answer (List.replicate 11 false ++ [true])
    (fun capped ↦ singleFetchUrlWithContext .ascii .simple (lit "http://a/1") (cappedConfig capped))
    ⟨.initial, fun _ ↦ none⟩

/-- The second fetch returns the four bytes of the first one. -/
theorem not_withinCap :
    ¬ ∀ (config : Bool → FetchConfig) (tr : List (Bool × Event fetchSignature CachedLocks))
      (q : Bool → Fetch FetchResult) (t : CachedLocks),
      PoolRun CachedLocks.Sem (fun i ↦ singleFetchUrlWithContext .ascii .simple
        (lit "http://a/1") (config i)) ⟨.initial, fun _ ↦ none⟩ tr q t →
      ∀ i result, 0 < (config i).maxResponseSize → q i = .ret result →
        WithinCap (config i).maxResponseSize result := by
  intro h
  have hret : (cappedFetch.2.1 true).value? = some (.ok (lit "text", false)) := by decide +kernel
  have hle := h cappedConfig _ _ _ (poolExec_run CachedLocks.answer_sound _ _ _) true _ (by decide)
    (Prog.value?_eq_some_iff.mp hret) _ _ rfl
  exact absurd hle (by decide)

/-! ## Fresh bodies -/

/-- The response ends the hops. -/
def HttpResponse.Final (content : HttpResponse) : Prop :=
  ¬ isRedirectStatus content.status ∨ content.header.get (lit "Location") = []

instance (content : HttpResponse) : Decidable content.Final :=
  inferInstanceAs (Decidable (_ ∨ _))

/-- The final response, once it has come. -/
def noteFinal (received : Option HttpResponse) : (o : FetchOp) → fetchSignature.Res o →
    Option HttpResponse
  | .request _, .ok content => if content.Final then some content else received
  | _, _ => received

/-- The final response of a fetch. -/
def finalResponse {σ : Type} (tr : List (Event fetchSignature σ)) : Option HttpResponse :=
  tr.foldl (fun received ev ↦ noteFinal received ev.op ev.res) none

theorem noteFinal_of_not_request {o : FetchOp} (ho : ∀ url, o ≠ .request url)
    (received : Option HttpResponse) (r : fetchSignature.Res o) : noteFinal received o r = received := by
  cases o with
  | request url => exact absurd rfl (ho url)
  | _ => rfl

theorem walk_do_final (client : Client) (url : Bytes) (g : Option HttpResponse) :
    (client.do_ L url).Walk (.reads noteFinal) g fun g' r ↦
      g' = match r with
        | .ok content => if content.Final then some content else g
        | .error _ => g := by
  refine ⟨trivial, fun addresses g₁ hnext ↦ ?_⟩
  obtain rfl : g₁ = g := hnext
  have hdial : (dialSerial L client url addresses none).Seq
      fun o ↦ ∃ url address, o = FetchOp.connect url address :=
    seq_dialSerial (fun address ↦ ⟨_, address, rfl⟩) addresses none
  show Prog.Walk _ ((dialSerial L client url addresses none).bind _) _ _
  refine Prog.walk_bind.mpr ((hdial.walk (fun _ _ ↦ trivial) ?_).mono ?_)
  · rintro o r g' ⟨url, address, rfl⟩ hg'
    exact hg'
  · rintro g₂ err rfl
    cases err with
    | some err => exact rfl
    | none =>
      refine ⟨trivial, fun r g₃ hg₃ ↦ ?_⟩
      cases r with
      | error err => exact hg₃
      | ok content => exact hg₃

/-- A hop: the response is noted if it is final. -/
theorem walk_hop_final {client : Client} {url : Bytes} {α : Type}
    {next : Except Bytes HttpResponse → Fetch α} {Q : Option HttpResponse → α → Prop}
    (herror : ∀ err, (next (.error err)).Walk (.reads noteFinal) none Q)
    (hfinal : ∀ content, content.Final →
      (next (.ok content)).Walk (.reads noteFinal) (some content) Q)
    (hredirect : ∀ content, ¬ content.Final → (next (.ok content)).Walk (.reads noteFinal) none Q) :
    ((client.do_ L url).bind next).Walk (.reads noteFinal) none Q := by
  refine Prog.walk_bind.mpr ((walk_do_final client url none).mono fun received r hreceived ↦ ?_)
  cases r with
  | error err =>
    rw [hreceived]
    exact herror err
  | ok content =>
    dsimp only at hreceived
    split_ifs at hreceived with hcontent
    · rw [hreceived]
      exact hfinal content hcontent
    · rw [hreceived]
      exact hredirect content hcontent

/-- Only the response that ends the hops is noted. -/
theorem walk_fetchHops_final (left : ℕ) (hopURL : Bytes) :
    (fetchHops U L config left hopURL).Walk (.reads noteFinal) none fun received r ↦
      received = r.toOption := by
  induction left generalizing hopURL with
  | zero =>
    rw [fetchHops]
    split
    · exact rfl
    · refine walk_hop_final (fun err ↦ rfl) (fun content hfinal ↦ ?_) fun content hfinal ↦ ?_
      · rw [HttpResponse.Final] at hfinal
        show Prog.Walk _ (if _ then _ else _) _ _
        rw [if_pos hfinal]
        exact rfl
      · rw [HttpResponse.Final] at hfinal
        show Prog.Walk _ (if _ then _ else _) _ _
        rw [if_neg hfinal]
        exact rfl
  | succ left ih =>
    rw [fetchHops]
    split
    · exact rfl
    · refine walk_hop_final (fun err ↦ rfl) (fun content hfinal ↦ ?_) fun content hfinal ↦ ?_
      · rw [HttpResponse.Final] at hfinal
        show Prog.Walk _ (if _ then _ else _) _ _
        rw [if_pos hfinal]
        exact rfl
      · rw [HttpResponse.Final] at hfinal
        show Prog.Walk _ (if _ then _ else _) _ _
        rw [if_neg hfinal]
        dsimp only
        split
        · exact rfl
        · split
          · exact rfl
          · exact ih _

/-- What a fetch returns for its final response, if that is good and has been read without an
error. -/
structure SizeCapped (U : Unicode) (cap : ℤ) (content : HttpResponse) (result : FetchResult) :
    Prop where
  /-- The bound that is read up to does not wrap around. -/
  bound : wrap64 (cap + 1) = cap + 1
  full : cap ≤ 0 ∨ (content.body.length : ℤ) ≤ cap →
    result = .ok (content.body, isEsiResponse U content)
  tooLong : 0 < cap → cap < content.body.length → ∃ err, result = .error err
  /-- No part of the body is taken for all of it. -/
  whole : ∀ body esi, result = .ok (body, esi) → body = content.body

/-- The result is right for the final response, if there is one. -/
def RightlyCapped (U : Unicode) (cap : ℤ) (received : Option HttpResponse) (result : FetchResult) :
    Prop :=
  ∀ content, received = some content → content.status < 400 → content.readErr = none →
    SizeCapped U cap content result

theorem rightlyCapped_none {cap : ℤ} (result : FetchResult) : RightlyCapped U cap none result :=
  fun _ h ↦ nomatch h

/-- The data of a response that is good and has been read without an error. -/
theorem HttpResponse.data_eq {content : HttpResponse} (hstatus : content.status < 400)
    (hread : content.readErr = none) (hcap : config.maxResponseSize ≤ maxMaxResponseSize) :
    content.data config =
      if 0 < config.maxResponseSize ∧ config.maxResponseSize < content.body.length then
        .error ⟨none, lit "response body exceeds maximum allowed size of " ++
          Strconv.formatInt config.maxResponseSize ++ lit " bytes"⟩
      else .ok content.body := by
  have hgood : ¬ content.status ≥ 400 := by omega
  rw [HttpResponse.data, HttpResponse.readCapped]
  by_cases hlimit : config.maxResponseSize > 0
  swap
  · rw [if_neg hlimit, if_neg fun h ↦ hlimit h.1, HttpResponse.readAll, hread]
    dsimp only
    rw [if_neg hgood]
  have hbound : wrap64 (config.maxResponseSize + 1) = config.maxResponseSize + 1 := by
    rw [maxMaxResponseSize] at hcap
    exact wrap64_of_mem (by omega) (by omega)
  rw [if_pos hlimit, hbound, HttpResponse.readLimited]
  by_cases hlarge : config.maxResponseSize < content.body.length
  · have hle : (config.maxResponseSize + 1).toNat ≤ content.body.length := by omega
    have hlong : config.maxResponseSize <
        ((content.body.take (config.maxResponseSize + 1).toNat).length : ℤ) := by
      rw [List.length_take, min_eq_left hle]
      omega
    rw [if_pos hle]
    dsimp only
    rw [if_pos hlong, if_pos ⟨hlimit, hlarge⟩]
  · have hle : ¬ (config.maxResponseSize + 1).toNat ≤ content.body.length := by omega
    rw [if_neg hle, hread]
    dsimp only
    rw [if_neg hlarge, if_neg fun h ↦ hlarge h.2]
    dsimp only
    rw [if_neg hgood]

theorem sizeCapped_of_data {content : HttpResponse} {data : Except GoError Bytes}
    (hlow : -2 ^ 63 ≤ config.maxResponseSize) (hcap : config.maxResponseSize ≤ maxMaxResponseSize)
    (hdata : content.data config = data) {result : FetchResult}
    (hresult : result = data.map fun data ↦ (data, isEsiResponse U content)) :
    RightlyCapped U config.maxResponseSize (some content) result := by
  rintro content' ⟨⟩ hstatus hread
  rw [HttpResponse.data_eq hstatus hread hcap] at hdata
  subst hdata hresult
  have hbound : wrap64 (config.maxResponseSize + 1) = config.maxResponseSize + 1 := by
    rw [maxMaxResponseSize] at hcap
    exact wrap64_of_mem (by omega) (by omega)
  by_cases hlong : 0 < config.maxResponseSize ∧ config.maxResponseSize < content.body.length
  · rw [if_pos hlong]
    refine ⟨hbound, fun hshort ↦ ?_, fun _ _ ↦ ⟨_, rfl⟩, nofun⟩
    omega
  · rw [if_neg hlong]
    refine ⟨hbound, fun _ ↦ rfl, fun hpos hlt ↦ absurd ⟨hpos, hlt⟩ hlong, ?_⟩
    rintro body esi ⟨⟩
    rfl

section

variable (hlow : -2 ^ 63 ≤ config.maxResponseSize)
  (hcap : config.maxResponseSize ≤ maxMaxResponseSize)

include hlow hcap

theorem walk_fetchUpstream_fresh (url : Bytes) (cacheKey : Option Bytes) :
    (fetchUpstream U L config url cacheKey).Walk (.reads noteFinal) none fun received result ↦
      RightlyCapped U config.maxResponseSize received result := by
  refine Prog.walk_bind.mpr ((walk_fetchHops_final maxRedirects url).mono fun received r hr ↦ ?_)
  subst hr
  cases r with
  | error err => exact rightlyCapped_none _
  | ok content =>
    dsimp only
    cases hdata : content.data config with
    | error err => exact sizeCapped_of_data hlow hcap hdata rfl
    | ok data =>
      have hresult := sizeCapped_of_data (U := U) hlow hcap hdata rfl
      cases cacheKey with
      | none => exact hresult
      | some key =>
        refine ⟨trivial, fun _ received hnext ↦ ?_⟩
        rw [show received = some content from hnext]
        exact hresult

omit hlow hcap in
theorem walk_withInflightLock_fresh {key : Bytes} {fetch : Fetch FetchResult}
    (hfetch : fetch.Walk (.reads noteFinal) none fun received result ↦
      RightlyCapped U config.maxResponseSize received result) :
    (withInflightLock key fetch).Walk (.reads noteFinal) none fun received result ↦
      RightlyCapped U config.maxResponseSize received result := by
  -- What comes after the result has been found receives nothing.
  have hleave {lock : LockId} {received : Option HttpResponse} {r : FetchResult}
      (hr : RightlyCapped U config.maxResponseSize received r) :
      (Prog.op (S := fetchSignature) (.drainSlot lock) fun _ ↦
        .op (.releaseInflightLock key lock) fun _ ↦ (.ret r : Fetch FetchResult)).Walk
          (.reads noteFinal) received fun received result ↦
            RightlyCapped U config.maxResponseSize received result := by
    refine ⟨trivial, fun _ g hg ↦ ⟨trivial, fun _ g' hg' ↦ ?_⟩⟩
    obtain rfl : g = received := hg
    obtain rfl : g' = g := hg'
    exact hr
  refine ⟨trivial, fun lock g₁ hnext ↦ ?_⟩
  obtain rfl : g₁ = none := hnext
  refine ⟨trivial, fun err g₂ hnext ↦ ?_⟩
  obtain rfl : g₂ = none := by
    cases err <;> exact hnext
  cases err with
  | some err =>
    refine ⟨trivial, fun _ g₃ hnext ↦ ?_⟩
    obtain rfl : g₃ = none := hnext
    exact rightlyCapped_none _
  | none =>
    refine ⟨trivial, fun err g₃ hnext ↦ ?_⟩
    obtain rfl : g₃ = none := hnext
    cases err with
    | some err => exact hleave (rightlyCapped_none _)
    | none =>
      refine ⟨trivial, fun hit g₄ hnext ↦ ?_⟩
      obtain rfl : g₄ = none := hnext
      show Prog.Walk _ (if hit.ok then _ else _) _ _
      split_ifs
      · exact hleave (rightlyCapped_none _)
      · exact Prog.walk_bind.mpr (hfetch.mono fun _ r hr ↦ hleave hr)

omit hlow hcap in
theorem walk_withSemaphore_fresh {fetch : Fetch FetchResult}
    (hfetch : fetch.Walk (.reads noteFinal) none fun received result ↦
      RightlyCapped U config.maxResponseSize received result) :
    (withSemaphore config fetch).Walk (.reads noteFinal) none fun received result ↦
      RightlyCapped U config.maxResponseSize received result := by
  rw [withSemaphore]
  split
  · exact hfetch
  · refine ⟨trivial, fun err g₁ hnext ↦ ?_⟩
    obtain rfl : g₁ = none := hnext
    cases err with
    | some err => exact rightlyCapped_none _
    | none =>
      show Prog.Walk _ (fetch.bind _) _ _
      refine Prog.walk_bind.mpr (hfetch.mono fun received r hr ↦ ⟨trivial, fun _ g₂ hnext ↦ ?_⟩)
      obtain rfl : g₂ = received := hnext
      exact hr

theorem walk_fetchAdmitted_fresh (requestedURL : Bytes) :
    (fetchAdmitted U L requestedURL config).Walk (.reads noteFinal) none fun received result ↦
      RightlyCapped U config.maxResponseSize received result := by
  rw [fetchAdmitted]
  cases urlToFetch U L requestedURL config with
  | error err => exact rightlyCapped_none _
  | ok url =>
    dsimp only
    cases fullCacheKey config url with
    | none => exact walk_fetchUpstream_fresh hlow hcap url none
    | some key =>
      refine ⟨trivial, fun hit g₁ hnext ↦ ?_⟩
      obtain rfl : g₁ = none := hnext
      show Prog.Walk _ (if hit.ok && !hit.err then _ else _) _ _
      split_ifs
      · exact rightlyCapped_none _
      · exact walk_withInflightLock_fresh (walk_fetchUpstream_fresh hlow hcap url (some key))

end

/-- **Main result.** The largest integer is no cap: the fetch does nothing and fails. With every other
one, a run that receives a final response returns all of its body or fails, as the cap says. -/
theorem sizeCapped_of_run (U : Unicode) (L : NetLib) (requestedURL : Bytes) (config : FetchConfig)
    (hlow : -2 ^ 63 ≤ config.maxResponseSize) :
    (config.maxResponseSize = 2 ^ 63 - 1 →
        ∃ err, singleFetchUrlWithContext U L requestedURL config = .ret (.error err)) ∧
      ∀ {σ : Type} (sem : (o : FetchOp) → σ → fetchSignature.Res o → σ → Prop) (env : σ → σ → Prop)
        (s t : σ) (tr : List (Event fetchSignature σ)) (result : FetchResult),
        Run sem env (singleFetchUrlWithContext U L requestedURL config) s tr (.ret result) t →
          ∀ content, finalResponse tr = some content → content.status < 400 →
            content.readErr = none → SizeCapped U config.maxResponseSize content result := by
  constructor
  · intro hmax
    rw [singleFetchUrlWithContext]
    split_ifs with htimeout
    · exact ⟨_, rfl⟩
    · rw [validateMaxResponseSize, if_neg (by rw [hmax, maxMaxResponseSize]; decide)]
      exact ⟨_, rfl⟩
  · intro σ sem env s t tr result hrun
    refine hrun.walk_reads (f := noteFinal) (g := none)
      (Q := fun received result ↦ RightlyCapped U config.maxResponseSize received result) ?_
    rw [singleFetchUrlWithContext]
    split_ifs with htimeout
    · exact rightlyCapped_none _
    · rw [validateMaxResponseSize]
      split_ifs with hcap
      · exact walk_withSemaphore_fresh (walk_fetchAdmitted_fresh hlow hcap requestedURL)
      · exact rightlyCapped_none _

/-- The answers of an upstream with one page. -/
def onePageAnswer (o : FetchOp) (s : Unit) : Option (fetchSignature.Res o × Unit) :=
  some (upstreamAnswer [(lit "http://a/1", .ofBody (lit "text"))] o, s)

/-- A fetch of a page of four bytes with a cap of eight. -/
def shortFetch : Outcome fetchSignature Unit Unit FetchResult :=
  (singleFetchUrlWithContext .ascii .simple (lit "http://a/1")
    { timeout := 1000, maxResponseSize := 8 }).exec onePageAnswer (fun (_ : Unit) _ ↦ none)
      (List.replicate 3 (.job [])) ()

theorem run_shortFetch : Run (fun o s r s' ↦ onePageAnswer o s = some (r, s')) (fun _ _ ↦ False)
    (singleFetchUrlWithContext .ascii .simple (lit "http://a/1")
      { timeout := 1000, maxResponseSize := 8 }) () shortFetch.trace shortFetch.prog
      shortFetch.state :=
  Prog.exec_run (fun _ _ _ _ h ↦ h) nofun _ _ _

theorem sizeCapped_of_run_short : ∃ content, finalResponse shortFetch.trace = some content ∧
    content.body = lit "text" ∧ SizeCapped .ascii 8 content (.ok (lit "text", false)) := by
  have hrun := run_shortFetch
  have hret : shortFetch.prog = .ret (.ok (lit "text", false)) :=
    Prog.value?_eq_some_iff.mp (by decide +kernel)
  have hfinal : (finalResponse shortFetch.trace).map
      (fun content ↦ (content.status, content.body, content.readErr)) =
        some (200, lit "text", none) := by decide +kernel
  obtain ⟨content, hcontent, heq⟩ := Option.map_eq_some_iff.mp hfinal
  obtain ⟨hstatus, hrest⟩ := Prod.mk.inj heq
  obtain ⟨hbody, hread⟩ := Prod.mk.inj hrest
  exact ⟨content, hcontent, hbody, (sizeCapped_of_run .ascii .simple (lit "http://a/1")
    { timeout := 1000, maxResponseSize := 8 } (by decide)).2 _ _ _ _ _ _ (hret ▸ hrun) content
      hcontent (by rw [hstatus]; decide) hread⟩

end GoMesi
