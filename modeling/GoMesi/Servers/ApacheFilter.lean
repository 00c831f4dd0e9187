import GoMesi.Middleware.ResponseWriter
import GoMesi.Servers.Apache
import GoMesi.Servers.EdgeControl

/-!
# The output filter of the Apache module

Apache hands a response to the filter as a sequence of brigades, which are lists of buckets: data,
data whose length is not known before it is read, and marks, of which the last is EOS. The filter
keeps the buckets until EOS comes, flattens them, and sends the parsed body. If a limit is set and
crossed it sends on what it has kept (pass), or an error bucket (error), and is not asked any more
(error) or sends on whatever follows (pass).

A filter that has removed itself is bypassed: what comes later goes to the next filter directly. So
an error in the middle of a response is followed by the rest of it.
-/

namespace GoMesi

open Strings

namespace Apache

/-! ## Buckets -/

/-- An `apr_bucket`. -/
inductive Bucket
  | data (b : Bytes)
  /-- A pipe or socket: the pieces that reading gives. -/
  | stream (pieces : List Bytes)
  /-- A bucket that cannot be read. -/
  | broken
  /-- Metadata other than the following. -/
  | metadata (kind : ℕ)
  | eos
  | error (status : ℕ)
  deriving DecidableEq, Repr

/-- The bytes of a bucket. -/
def Bucket.bytes : Bucket → Bytes
  | data b => b
  | stream pieces => pieces.flatten
  | _ => []

/-- The bytes of a brigade. -/
def brigadeData (bb : List Bucket) : Bytes := bb.flatMap Bucket.bytes

/-- A bucket of data. -/
def Bucket.isData : Bucket → Bool
  | data _ => true
  | stream _ => true
  | _ => false

/-! ## Requests -/

/-- A C string: what stands before the first NUL byte. -/
def cString (s : Bytes) : Bytes := s.takeWhile (· != 0)

/-- A response on its way to a client, as the filter sees it: the directives, the libgomesi of the
process with its client, the request and the headers of the response. -/
structure FilterRequest where
  conf : MesiConfig
  /-- `0` for no limit. -/
  maxBodySize : ℤ := 0
  onOversize : OnOversize := .pass
  lib : Option Symbols := some .exports
  sharedClient : Option HttpClient := none
  baseURL : Bytes := []
  cacheKeyFunc : Bytes → Bytes := id
  contentType : Option Bytes
  status : ℕ := 200
  edgeControl : Option Bytes := none
  headerOnly : Bool := false
  clength : ℤ := 0
  contentLength : Option Bytes := none
  /-- `force_flatten_error` -/
  forceFlattenError : Bool := false

/-- `is_html_content` -/
def isHtmlContent : Option Bytes → Bool
  | none => false
  | some ct =>
    let ct := (cString ct).dropWhile fun c ↦ c == 0x20 || c == 0x09
    strncasecmpEq ct (lit "text/html") &&
      match ct[9]? with
      | none => true
      | some delim => (lit "; \t\r\n").contains delim

/-- The digits a string starts with. -/
def leadingDigits : Bytes → List ℕ
  | [] => []
  | b :: rest =>
    match Strconv.digit? b with
    | none => []
    | some d => d :: leadingDigits rest

/-- `apr_strtoff` in base 10: the number at the start, `none` if it does not fit. -/
def aprStrtoff (s : Bytes) : Option ℤ :=
  let s := (cString s).dropWhile mesiIsHeaderSpace
  let digits := if s.head? = some 0x2b ∨ s.head? = some 0x2d then s.tail else s
  let n : ℤ := (leadingDigits digits).foldl (fun n d ↦ 10 * n + d) 0
  if s.head? = some 0x2d then if 2 ^ 63 < n then none else some (-n)
  else if 2 ^ 63 ≤ n then none else some n

namespace FilterRequest

variable (r : FilterRequest)

/-- No body follows. -/
def bodiless : Bool := r.headerOnly || decide (r.status = 204) || decide (r.status = 304)

/-- The limit of the body, if there is one. Bodiless responses are never limited. -/
def limit : Option ℕ :=
  if 0 < r.maxBodySize ∧ ¬ r.bodiless then some r.maxBodySize.toNat else none

/-- The length that has been announced. -/
def declared : ℤ :=
  match r.contentLength.bind aprStrtoff with
  | some hdr => max hdr r.clength
  | none => r.clength

/-- The announced length is over the limit. -/
def declaredOver : Bool := r.limit.any fun n ↦ decide ((n : ℤ) < r.declared)

/-- The filter lets the response alone. -/
def ignored : Bool :=
  !isHtmlContent r.contentType || decide (400 ≤ r.status) ||
    (decide (r.conf.parseOnHeader ≠ -1 ∧ r.conf.parseOnHeader ≠ 0) &&
      !mesiHeaderSignalsEsi r.edgeControl)

end FilterRequest

/-! ## The body -/

/-- `flatten_brigade` -/
def flattenBrigade (force : Bool) (bb : List Bucket) : Option Bytes :=
  if force then none
  else if bb.any (· = .broken) then none
  else if 0 < (brigadeData bb).length then some (brigadeData bb)
  else none

/-- What becomes of a body. -/
inductive Handled
  /-- It is not parsed. -/
  | raw
  /-- libgomesi has returned `NULL`. -/
  | failed
  | parsed (esi : Bytes)
  deriving DecidableEq, Repr

/-- What becomes of a body that has been flattened, where `render` is what `MESIParse` makes of a
page. -/
def handle (r : FilterRequest) (render : Bytes → EsiParserConfig → Bytes) (html : Bytes) : Handled :=
  match r.lib with
  | none => .raw
  | some sym =>
    match entryPoint sym r.conf with
    | none => .raw
    | some _ =>
      let request : Request := ⟨r.conf, some html, r.baseURL, r.cacheKeyFunc⟩
      match callParse sym request r.sharedClient with
      | none => .failed
      | some cfg => .parsed (cString (render (cString html) cfg))

/-- The buckets that are sent for a body. -/
def finish (r : FilterRequest) (render : Bytes → EsiParserConfig → Bytes) (bb : List Bucket) :
    List Bucket :=
  match flattenBrigade r.forceFlattenError bb with
  | none => bb ++ [.eos]
  | some html =>
    match handle r render html with
    | .raw => [.data (cString html), .eos]
    | .failed => [.eos]
    | .parsed esi => [.data esi, .eos]

/-! ## The filter -/

/-- `response_filter_ctx` -/
structure FilterCtx where
  bb : List Bucket := []
  total : ℕ := 0
  passthrough : Bool := false

/-- The filter of a response: its context, and whether it has removed itself. -/
structure FilterState where
  ctx : FilterCtx := {}
  removed : Bool := false

/-- The counting in the loop: the context with `blen` bytes more, and whether it is over the limit. -/
def FilterCtx.count (ctx : FilterCtx) (limit : Option ℕ) (blen : ℕ) : FilterCtx × Bool :=
  match limit with
  | none => (ctx, false)
  | some n => ({ ctx with total := ctx.total + blen }, decide (n < ctx.total + blen))

/-- A bucket is moved to the brigade of the context. -/
def FilterCtx.insertTail (ctx : FilterCtx) (b : Bucket) : FilterCtx := { ctx with bb := ctx.bb ++ [b] }

/-- The weight of a brigade for the loop, which reads a stream piece by piece. -/
def weight : List Bucket → ℕ
  | [] => 0
  | .stream pieces :: rest => pieces.length + 2 + weight rest
  | _ :: rest => 1 + weight rest

/-- The loop that moves the buckets: the context, whether EOS has been seen, and the rest of the
brigade if the limit is crossed. -/
def moveBuckets (limit : Option ℕ) (ctx : FilterCtx) (seenEos : Bool) :
    List Bucket → FilterCtx × Bool × Option (List Bucket)
  | [] => (ctx, seenEos, none)
  | .eos :: rest => moveBuckets limit ctx true rest
  | .data b :: rest =>
    if (ctx.count limit b.length).2 then
      ((ctx.count limit b.length).1, seenEos, some (.data b :: rest))
    else moveBuckets limit ((ctx.count limit b.length).1.insertTail (.data b)) seenEos rest
  | .stream pieces :: rest =>
    if limit = none then moveBuckets limit (ctx.insertTail (.stream pieces)) seenEos rest
    else
      -- reading leaves a bucket with the first piece and one with the others
      match pieces with
      | [] =>
        if (ctx.count limit 0).2 then ((ctx.count limit 0).1, seenEos, some (.data [] :: rest))
        else moveBuckets limit ((ctx.count limit 0).1.insertTail (.data [])) seenEos rest
      | b :: pieces =>
        if (ctx.count limit b.length).2 then
          ((ctx.count limit b.length).1, seenEos, some (.data b :: .stream pieces :: rest))
        else
          moveBuckets limit ((ctx.count limit b.length).1.insertTail (.data b)) seenEos
            (.stream pieces :: rest)
  | .broken :: rest =>
    if (ctx.count limit 0).2 then ((ctx.count limit 0).1, seenEos, some (.broken :: rest))
    else moveBuckets limit ((ctx.count limit 0).1.insertTail .broken) seenEos rest
  | .metadata kind :: rest => moveBuckets limit (ctx.insertTail (.metadata kind)) seenEos rest
  | .error status :: rest => moveBuckets limit (ctx.insertTail (.error status)) seenEos rest
termination_by bb => weight bb
decreasing_by all_goals simp [weight]; try omega

/-- What a call of the filter does: its new state, what `ctx->bb` has been filled with, and what it
passes to the next filter. -/
structure Reply where
  state : FilterState
  held : List Bucket := []
  out : List Bucket := []

/-- The limit is crossed, with `rest` of the brigade not moved. -/
def oversize (r : FilterRequest) (ctx : FilterCtx) (rest : List Bucket) : Reply :=
  if r.onOversize = .error then
    { state := ⟨{ ctx with bb := [] }, true⟩, held := ctx.bb, out := [.error 502, .eos] }
  else
    { state := ⟨{ ctx with bb := [], passthrough := true }, false⟩
      held := ctx.bb
      out := ctx.bb ++ rest }

/-- `mesi_response_filter` -/
def mesiResponseFilter (r : FilterRequest) (render : Bytes → EsiParserConfig → Bytes)
    (s : FilterState) (bb : List Bucket) : Reply :=
  if ¬ r.conf.enableMesi then { state := s, out := bb }
  else if r.ignored then { state := { s with removed := true }, out := bb }
  else if s.ctx.passthrough then { state := s, out := bb }
  else if r.declaredOver then oversize r s.ctx bb
  else
    match moveBuckets r.limit s.ctx false bb with
    | (ctx, _, some rest) => oversize r ctx rest
    | (ctx, false, none) => { state := { s with ctx }, held := ctx.bb }
    | (ctx, true, none) =>
      { state := { s with ctx := { ctx with bb := [] } }
        held := ctx.bb
        out := finish r render ctx.bb }

/-- A brigade comes to the place of the filter. -/
def deliver (r : FilterRequest) (render : Bytes → EsiParserConfig → Bytes) (s : FilterState)
    (bb : List Bucket) : Reply :=
  if s.removed then { state := s, out := bb } else mesiResponseFilter r render s bb

/-- A response on its way: the filter, and what the next filter has got. -/
structure Stream where
  state : FilterState := {}
  out : List Bucket := []

def Stream.step (r : FilterRequest) (render : Bytes → EsiParserConfig → Bytes) (s : Stream)
    (bb : List Bucket) : Stream :=
  ⟨(deliver r render s.state bb).state, s.out ++ (deliver r render s.state bb).out⟩

/-- All brigades of a response. -/
def stream (r : FilterRequest) (render : Bytes → EsiParserConfig → Bytes)
    (brigades : List (List Bucket)) : Stream :=
  brigades.foldl (Stream.step r render) {}

/-! ## Moving buckets -/

/-- No bucket is EOS. -/
def Plain (bb : List Bucket) : Prop := ∀ b ∈ bb, b ≠ .eos

theorem brigadeData_append (bb bb' : List Bucket) :
    brigadeData (bb ++ bb') = brigadeData bb ++ brigadeData bb' := List.flatMap_append

theorem brigadeData_cons (b : Bucket) (bb : List Bucket) :
    brigadeData (b :: bb) = b.bytes ++ brigadeData bb := rfl

theorem Plain.append {bb bb' : List Bucket} (h : Plain bb) (h' : Plain bb') : Plain (bb ++ bb') := by
  intro b hb
  rcases List.mem_append.mp hb with hb | hb
  · exact h b hb
  · exact h' b hb

theorem Plain.cons {b : Bucket} {bb : List Bucket} (hb : b ≠ .eos) (h : Plain bb) :
    Plain (b :: bb) := by
  intro b' hb'
  rcases List.mem_cons.mp hb' with rfl | hb'
  · exact hb
  · exact h b' hb'

theorem Plain.of_cons {b : Bucket} {bb : List Bucket} (h : Plain (b :: bb)) : Plain bb :=
  fun b' hb' ↦ h b' (List.mem_cons_of_mem _ hb')

/-- Two sequences of buckets carry the same body: the same bytes, and the same other buckets in the
same order. -/
structure SameBody (bb bb' : List Bucket) : Prop where
  bytes : brigadeData bb = brigadeData bb'
  others : bb.filter (! ·.isData) = bb'.filter (! ·.isData)

theorem SameBody.append {bb bb' : List Bucket} (h : SameBody bb bb') (tail : List Bucket) :
    SameBody (bb ++ tail) (bb' ++ tail) := by
  constructor
  · rw [brigadeData_append, brigadeData_append, h.bytes]
  · rw [List.filter_append, List.filter_append, h.others]

theorem SameBody.append_left {bb bb' : List Bucket} (front : List Bucket) (h : SameBody bb bb') :
    SameBody (front ++ bb) (front ++ bb') := by
  constructor
  · rw [brigadeData_append, brigadeData_append, h.bytes]
  · rw [List.filter_append, List.filter_append, h.others]

theorem SameBody.trans {bb bb' bb'' : List Bucket} (h : SameBody bb bb') (h' : SameBody bb' bb'') :
    SameBody bb bb'' :=
  ⟨h.bytes.trans h'.bytes, h.others.trans h'.others⟩

theorem SameBody.mem_iff {bb bb' : List Bucket} (h : SameBody bb bb') {b : Bucket}
    (hb : b.isData = false) : b ∈ bb ↔ b ∈ bb' := by
  have hmem (l : List Bucket) : b ∈ l ↔ b ∈ l.filter (! ·.isData) := by simp [hb]
  rw [hmem bb, h.others, ← hmem bb']

/-- Reading a stream keeps the body. -/
theorem sameBody_stream_cons (b : Bytes) (pieces : List Bytes) (rest : List Bucket) :
    SameBody (.data b :: .stream pieces :: rest) (.stream (b :: pieces) :: rest) :=
  ⟨by simp [brigadeData_cons, Bucket.bytes], by simp [Bucket.isData]⟩

theorem sameBody_stream_nil (rest : List Bucket) :
    SameBody (.data [] :: rest) (.stream [] :: rest) :=
  ⟨by simp [brigadeData_cons, Bucket.bytes], by simp [Bucket.isData]⟩

/-- The context has kept all of the body that has come, within the limit. -/
structure Held (limit : Option ℕ) (seen : List Bucket) (ctx : FilterCtx) : Prop where
  body : SameBody ctx.bb seen
  plain : Plain ctx.bb
  passthrough : ctx.passthrough = false
  total : ∀ n ∈ limit, ctx.total = (brigadeData seen).length
  within : ∀ n ∈ limit, (brigadeData seen).length ≤ n

/-- How the loop ends when the buckets that have come are `seen`, and it has not met EOS. -/
inductive MovedTo (limit : Option ℕ) (seen : List Bucket) (seenEos : Bool) :
    FilterCtx × Bool × Option (List Bucket) → Prop
  | all {ctx : FilterCtx} (h : Held limit seen ctx) : MovedTo limit seen seenEos (ctx, seenEos, none)
  | crossed {ctx : FilterCtx} {rest : List Bucket} {n : ℕ} (hlimit : limit = some n)
    (hover : n < (brigadeData seen).length) (hbody : SameBody (ctx.bb ++ rest) seen)
    (hwithin : (brigadeData ctx.bb).length ≤ n) (hplain : Plain (ctx.bb ++ rest)) :
    MovedTo limit seen seenEos (ctx, seenEos, some rest)

theorem Held.of_same {limit : Option ℕ} {seen seen' : List Bucket} {ctx : FilterCtx}
    (h : Held limit seen ctx) (hsame : SameBody seen seen') : Held limit seen' ctx :=
  ⟨h.body.trans hsame, h.plain, h.passthrough, hsame.bytes ▸ h.total, hsame.bytes ▸ h.within⟩

theorem MovedTo.of_same {limit : Option ℕ} {seen seen' : List Bucket} {seenEos : Bool}
    {moved : FilterCtx × Bool × Option (List Bucket)} (h : MovedTo limit seen seenEos moved)
    (hsame : SameBody seen seen') : MovedTo limit seen' seenEos moved := by
  cases h with
  | all h => exact .all (h.of_same hsame)
  | crossed hlimit hover hbody hwithin hplain =>
    exact .crossed hlimit (hsame.bytes ▸ hover) (hbody.trans hsame) hwithin hplain

section Held

variable {limit : Option ℕ} {seen : List Bucket} {ctx : FilterCtx} {b : Bucket} {blen : ℕ}

/-- A bucket that does not cross the limit is kept. -/
theorem Held.insert (h : Held limit seen ctx) (hb : b ≠ .eos)
    (hblen : limit ≠ none → blen = b.bytes.length) (hunder : ¬ (ctx.count limit blen).2 = true) :
    Held limit (seen ++ [b]) ((ctx.count limit blen).1.insertTail b) := by
  have hbody : SameBody (ctx.bb ++ [b]) (seen ++ [b]) := h.body.append [b]
  have hplain : Plain (ctx.bb ++ [b]) := h.plain.append (Plain.cons hb nofun)
  cases limit with
  | none => exact ⟨hbody, hplain, h.passthrough, nofun, nofun⟩
  | some n =>
    have hlength : ctx.total + blen = (brigadeData (seen ++ [b])).length := by
      rw [h.total n rfl, hblen (Option.some_ne_none n), brigadeData_append, List.length_append]
      simp [brigadeData]
    have hunder : ¬ n < ctx.total + blen := fun hc ↦ hunder (decide_eq_true hc)
    refine ⟨hbody, hplain, h.passthrough, fun _ _ ↦ hlength, ?_⟩
    rintro m ⟨⟩
    omega

/-- A bucket that crosses the limit is left with those after it. -/
theorem Held.crossed (h : Held limit seen ctx) (hblen : limit ≠ none → blen = b.bytes.length)
    (hover : (ctx.count limit blen).2 = true) {rest : List Bucket} (hplain : Plain (b :: rest))
    (seenEos : Bool) :
    MovedTo limit (seen ++ b :: rest) seenEos
      ((ctx.count limit blen).1, seenEos, some (b :: rest)) := by
  cases limit with
  | none => exact absurd hover Bool.false_ne_true
  | some n =>
    have hover : n < ctx.total + blen := of_decide_eq_true hover
    rw [h.total n rfl, hblen (Option.some_ne_none n)] at hover
    refine .crossed rfl ?_ (h.body.append _) ?_ (h.plain.append hplain)
    · rw [brigadeData_append, brigadeData_cons, List.length_append, List.length_append]
      omega
    · change (brigadeData ctx.bb).length ≤ n
      rw [h.body.bytes]
      exact h.within n rfl

/-- Metadata is kept, and is not counted. -/
theorem Held.insert_metadata (h : Held limit seen ctx) (hb : b ≠ .eos) (hempty : b.bytes = []) :
    Held limit (seen ++ [b]) (ctx.insertTail b) := by
  have hbytes : brigadeData (seen ++ [b]) = brigadeData seen := by
    rw [brigadeData_append, brigadeData_cons, hempty]
    exact List.append_nil _
  exact ⟨h.body.append [b], h.plain.append (Plain.cons hb nofun), h.passthrough,
    hbytes.symm ▸ h.total, hbytes.symm ▸ h.within⟩

end Held

/-- The loop on a brigade without EOS. -/
theorem movedTo_moveBuckets {limit : Option ℕ} {seen : List Bucket} {ctx : FilterCtx}
    {bb : List Bucket} (seenEos : Bool) (h : Held limit seen ctx) (hplain : Plain bb) :
    MovedTo limit (seen ++ bb) seenEos (moveBuckets limit ctx seenEos bb) := by
  fun_induction moveBuckets limit ctx seenEos bb generalizing seen with
  | case1 => exact .all (by rwa [List.append_nil])
  | case2 => exact absurd rfl (hplain _ List.mem_cons_self)
  | case3 ctx seenEos b rest hover =>
    exact h.crossed (b := .data b) (fun _ ↦ rfl) hover hplain seenEos
  | case4 ctx seenEos b rest hunder ih =>
    rw [List.append_cons]
    exact ih (h.insert nofun (fun _ ↦ rfl) hunder) hplain.of_cons
  | case5 ctx seenEos pieces rest hlimit ih =>
    rw [List.append_cons]
    refine ih ⟨h.body.append _, h.plain.append (Plain.cons nofun nofun), h.passthrough, ?_, ?_⟩
      hplain.of_cons
    · rw [hlimit]
      exact nofun
    · rw [hlimit]
      exact nofun
  | case6 ctx seenEos rest _ hover =>
    have hcrossed := h.crossed (b := .data []) (fun _ ↦ rfl) hover
      (Plain.cons nofun hplain.of_cons) seenEos
    exact hcrossed.of_same ((sameBody_stream_nil rest).append_left seen)
  | case7 ctx seenEos rest _ hunder ih =>
    have hmoved := ih (h.insert (b := .data []) nofun (fun _ ↦ rfl) hunder) hplain.of_cons
    rw [← List.append_cons] at hmoved
    exact hmoved.of_same ((sameBody_stream_nil rest).append_left seen)
  | case8 ctx seenEos rest _ b pieces hover =>
    have hread : Plain (.data b :: .stream pieces :: rest) :=
      Plain.cons nofun (Plain.cons nofun hplain.of_cons)
    have hcrossed := h.crossed (b := .data b) (fun _ ↦ rfl) hover hread seenEos
    exact hcrossed.of_same ((sameBody_stream_cons b pieces rest).append_left seen)
  | case9 ctx seenEos rest _ b pieces hunder ih =>
    have hmoved := ih (h.insert (b := .data b) nofun (fun _ ↦ rfl) hunder)
      (Plain.cons nofun hplain.of_cons)
    rw [← List.append_cons] at hmoved
    exact hmoved.of_same ((sameBody_stream_cons b pieces rest).append_left seen)
  | case10 ctx seenEos rest hover =>
    exact h.crossed (b := .broken) (fun _ ↦ rfl) hover hplain seenEos
  | case11 ctx seenEos rest hunder ih =>
    rw [List.append_cons]
    exact ih (h.insert nofun (fun _ ↦ rfl) hunder) hplain.of_cons
  | case12 ctx seenEos kind rest ih =>
    rw [List.append_cons]
    exact ih (h.insert_metadata nofun rfl) hplain.of_cons
  | case13 ctx seenEos status rest ih =>
    rw [List.append_cons]
    exact ih (h.insert_metadata nofun rfl) hplain.of_cons

/-- EOS at the end of a brigade is deleted if the loop gets there. -/
theorem moveBuckets_append_eos (limit : Option ℕ) (ctx : FilterCtx) (seenEos : Bool)
    (bb : List Bucket) :
    moveBuckets limit ctx seenEos (bb ++ [.eos]) =
      ((moveBuckets limit ctx seenEos bb).1,
        (moveBuckets limit ctx seenEos bb).2.1 || (moveBuckets limit ctx seenEos bb).2.2.isNone,
        (moveBuckets limit ctx seenEos bb).2.2.map (· ++ [.eos])) := by
  fun_induction moveBuckets limit ctx seenEos bb
  case case5 pieces rest hlimit ih => cases pieces <;> simp_all [moveBuckets]
  all_goals simp_all [moveBuckets]

/-! ## Libgomesi -/

/-- Libgomesi can be asked to parse a page. -/
def FilterRequest.parses (r : FilterRequest) : Prop :=
  (r.lib.bind fun sym ↦ entryPoint sym r.conf) ≠ none

theorem isSome_parseWithConfigInternal (sharedClient : Option HttpClient) {p : ParseParams}
    (hdepth : validMaxDepth p.maxDepth = true) :
    (parseWithConfigInternal sharedClient p).isSome := by
  rw [parseWithConfigInternal, if_neg (not_not.mpr hdepth)]
  rfl

theorem isSome_parseJson (sharedClient : Option HttpClient) {p : ParseParams}
    (hdepth : validMaxDepth p.maxDepth = true) {timeout size requests workers : ℤ}
    (htimeout : InRange 1 86400 timeout) (hsize : InRange 0 (2 ^ 63 - 2) size)
    (hrequests : InRange 0 999999999 requests) (hworkers : InRange 0 999999999 workers) :
    (parseJson sharedClient p timeout size requests workers).isSome := by
  obtain ⟨timeout', htimeout⟩ := exists_resolved 30 htimeout
  obtain ⟨size', hsize⟩ := exists_resolved 0 hsize
  obtain ⟨requests', hrequests⟩ := exists_resolved 0 hrequests
  obtain ⟨workers', hworkers⟩ := exists_resolved 0 hworkers
  simp only [parseJson, htimeout, hsize, hrequests, hworkers, Option.bind_eq_bind, Option.bind_some]
  exact isSome_parseWithConfigInternal sharedClient hdepth

/-- The setters of the directives let no value through that libgomesi would reject. -/
theorem isSome_callParse (sharedClient : Option HttpClient) {sym : Symbols} (request : Request)
    {e : EntryPoint} (hentry : entryPoint sym request.conf = some e) :
    (callParse sym request sharedClient).isSome := by
  have hdepth := request.conf.validMaxDepth_depth
  simp only [callParse, hentry]
  cases e with
  | parseJson =>
    exact isSome_parseJson sharedClient hdepth request.conf.timeoutSeconds_range
      request.conf.maxResponseSize_range request.conf.maxConcurrentRequests_range
      request.conf.maxWorkers_range
  | parse =>
    dsimp only
    rw [Parse, if_neg (not_not.mpr hdepth)]
    rfl
  | _ => exact isSome_parseWithConfigInternal sharedClient hdepth

variable {r : FilterRequest} {render : Bytes → EsiParserConfig → Bytes}

variable (render) in
theorem handle_of_parses (h : r.parses) (html : Bytes) :
    ∃ cfg, handle r render html = .parsed (cString (render (cString html) cfg)) := by
  rw [FilterRequest.parses, ne_eq, Option.bind_eq_none_iff] at h
  push Not at h
  obtain ⟨sym, hsym, hentry⟩ := h
  obtain ⟨e, he⟩ := Option.ne_none_iff_exists'.mp hentry
  obtain ⟨cfg, hcfg⟩ := Option.isSome_iff_exists.mp
    (isSome_callParse r.sharedClient ⟨r.conf, some html, r.baseURL, r.cacheKeyFunc⟩ he)
  simp only [handle, hsym, he, hcfg]
  exact ⟨_, rfl⟩

theorem handle_of_not_parses (h : ¬ r.parses) (html : Bytes) : handle r render html = .raw := by
  rw [FilterRequest.parses, not_not] at h
  rw [handle]
  cases hlib : r.lib with
  | none => rfl
  | some sym =>
    rw [hlib, Option.bind_some] at h
    simp only [h]

theorem cString_eq_iff (s : Bytes) : cString s = s ↔ 0 ∉ s := by
  rw [cString, List.takeWhile_eq_self_iff]
  constructor
  · intro h hmem
    exact absurd (h 0 hmem) (by decide)
  · rintro h b hb
    exact bne_iff_ne.mpr fun hzero ↦ h (hzero ▸ hb)

/-! ## Whole responses -/

/-- What is sent of a response before EOS: its body, or the body that libgomesi has made of it, or a
502. -/
inductive Delivered (r : FilterRequest) (render : Bytes → EsiParserConfig → Bytes)
    (input body : List Bucket) : Prop
  | unchanged (hbytes : brigadeData body = brigadeData input)
    (herror : ∀ status, .error status ∈ body → .error status ∈ input)
  | processed {esi : Bytes} (hhandle : handle r render (brigadeData input) = .parsed esi)
    (hbody : body = [.data esi])
  | refused (hbody : body = [.error 502])

/-- The next filter gets one response, with one EOS at its end. -/
def OneResponse (r : FilterRequest) (render : Bytes → EsiParserConfig → Bytes)
    (input out : List Bucket) : Prop :=
  ∃ body, out = body ++ [.eos] ∧ Plain body ∧ Delivered r render input body

/-- The response of the brigades `init` and of a last one, which ends with EOS, is delivered as one
response, and never more than the limit is held. -/
def WholeResponse (r : FilterRequest) (render : Bytes → EsiParserConfig → Bytes)
    (init : List (List Bucket)) (last : List Bucket) : Prop :=
  OneResponse r render (init.flatten ++ last) (stream r render (init ++ [last ++ [.eos]])).out ∧
    ∀ before bb, before ++ [bb] <+: init ++ [last ++ [.eos]] → ∀ n ∈ r.limit,
      (brigadeData (deliver r render (stream r render before).state bb).held).length ≤ n

/-- The filter has something to do with the response. -/
def FilterRequest.active (r : FilterRequest) : Prop := r.conf.enableMesi = true ∧ r.ignored = false

/-- The response is refused before its last brigade comes. -/
def RefusedEarly (r : FilterRequest) (init : List (List Bucket)) : Prop :=
  r.onOversize = .error ∧ init ≠ [] ∧
    (r.declaredOver = true ∨ ∃ n ∈ r.limit, n < (brigadeData init.flatten).length)

/-- The body is sent as a C string without being parsed, and is cut there. -/
def CutRaw (r : FilterRequest) (input : List Bucket) : Prop :=
  ¬ r.parses ∧ 0 ∈ brigadeData input ∧ r.declaredOver = false ∧
    (∀ n ∈ r.limit, (brigadeData input).length ≤ n) ∧ r.forceFlattenError = false ∧
    .broken ∉ input

section Runs

/-- How things stand after some brigades, none with EOS. -/
inductive After (r : FilterRequest) (init : List (List Bucket)) : Stream → Prop
  | waiting {ctx : FilterCtx} (hheld : Held r.limit init.flatten ctx)
    (hdeclared : r.declaredOver = true → init = []) : After r init ⟨⟨ctx, false⟩, []⟩
  | passing {ctx : FilterCtx} {out : List Bucket} (hmode : r.onOversize ≠ .error)
    (hpassthrough : ctx.passthrough = true) (hbody : SameBody out init.flatten) (hplain : Plain out)
    (hover : r.declaredOver = true ∨ ∃ n ∈ r.limit, n < (brigadeData init.flatten).length) :
    After r init ⟨⟨ctx, false⟩, out⟩
  | refused {ctx : FilterCtx} {out : List Bucket} (h : RefusedEarly r init) :
    After r init ⟨⟨ctx, true⟩, .error 502 :: .eos :: out⟩

variable {init : List (List Bucket)} {s : Stream} {bb : List Bucket}

theorem flatten_concat (init : List (List Bucket)) (bb : List Bucket) :
    (init ++ [bb]).flatten = init.flatten ++ bb := by
  rw [List.flatten_append, List.flatten_singleton]

theorem over_append {n : ℕ} {seen : List Bucket} (h : n < (brigadeData seen).length)
    (bb : List Bucket) : n < (brigadeData (seen ++ bb)).length := by
  rw [brigadeData_append, List.length_append]
  omega

/-- A call of the filter that is neither bypassed nor lets the response alone. -/
theorem deliver_of_active (hactive : r.active) {ctx : FilterCtx} (h : ctx.passthrough = false) :
    deliver r render ⟨ctx, false⟩ bb =
      if r.declaredOver then oversize r ctx bb
      else
        match moveBuckets r.limit ctx false bb with
        | (ctx, _, some rest) => oversize r ctx rest
        | (ctx, false, none) => { state := ⟨ctx, false⟩, held := ctx.bb }
        | (ctx, true, none) =>
          { state := ⟨{ ctx with bb := [] }, false⟩
            held := ctx.bb
            out := finish r render ctx.bb } := by
  simp [deliver, mesiResponseFilter, hactive.1, hactive.2, h]

theorem deliver_of_passthrough (hactive : r.active) {ctx : FilterCtx} (h : ctx.passthrough = true) :
    deliver r render ⟨ctx, false⟩ bb = { state := ⟨ctx, false⟩, out := bb } := by
  simp [deliver, mesiResponseFilter, hactive.1, hactive.2, h]

theorem held_oversize (ctx : FilterCtx) (rest : List Bucket) : (oversize r ctx rest).held = ctx.bb := by
  rw [oversize]
  split_ifs <;> rfl

/-- The brigade that crosses the limit decides about the response. -/
theorem after_oversize {ctx : FilterCtx} {rest : List Bucket}
    (hover : r.declaredOver = true ∨ ∃ n ∈ r.limit, n < (brigadeData (init.flatten ++ bb)).length)
    (hbody : SameBody (ctx.bb ++ rest) (init.flatten ++ bb)) (hplain : Plain (ctx.bb ++ rest)) :
    After r (init ++ [bb]) ⟨(oversize r ctx rest).state, (oversize r ctx rest).out⟩ := by
  rw [← flatten_concat] at hover hbody
  rw [oversize]
  split_ifs with hmode
  · exact .refused ⟨hmode, List.concat_ne_nil _ _, hover⟩
  · exact .passing hmode rfl hbody hplain hover

/-- One brigade without EOS: the step of the invariant. -/
theorem After.step (hactive : r.active) (h : After r init s) (hplain : Plain bb) :
    After r (init ++ [bb]) (s.step r render bb) ∧
      ∀ n ∈ r.limit, (brigadeData (deliver r render s.state bb).held).length ≤ n := by
  cases h with
  | @waiting ctx hheld hdeclared =>
    rw [Stream.step, deliver_of_active hactive hheld.passthrough]
    dsimp only [List.nil_append]
    by_cases hover : r.declaredOver = true
    · rw [if_pos hover, held_oversize, hheld.body.bytes]
      exact ⟨after_oversize (.inl hover) (hheld.body.append bb) (hheld.plain.append hplain),
        hheld.within⟩
    · rw [if_neg hover]
      have hmoved := movedTo_moveBuckets false hheld hplain
      revert hmoved
      generalize moveBuckets r.limit ctx false bb = moved
      rintro (hall | ⟨hlimit, hcross, hbody, hwithin, hrest⟩)
      · rw [← flatten_concat] at hall
        exact ⟨.waiting hall fun hc ↦ absurd hc hover, hall.body.bytes ▸ hall.within⟩
      · refine ⟨after_oversize (.inr ⟨_, hlimit, hcross⟩) hbody hrest, ?_⟩
        rw [held_oversize, hlimit]
        rintro n ⟨⟩
        exact hwithin
  | passing hmode hpassthrough hbody hout hover =>
    rw [Stream.step, deliver_of_passthrough hactive hpassthrough]
    refine ⟨.passing hmode hpassthrough ?_ (hout.append hplain) ?_, fun n _ ↦ Nat.zero_le n⟩
    · rw [flatten_concat]
      exact hbody.append bb
    · rw [flatten_concat]
      exact hover.imp_right fun ⟨n, hn, hover⟩ ↦ ⟨n, hn, over_append hover bb⟩
  | refused h =>
    obtain ⟨hmode, hinit, hover⟩ := h
    refine ⟨.refused ⟨hmode, List.concat_ne_nil _ _, ?_⟩, fun n _ ↦ Nat.zero_le n⟩
    rw [flatten_concat]
    exact hover.imp_right fun ⟨n, hn, hover⟩ ↦ ⟨n, hn, over_append hover bb⟩

theorem stream_concat (brigades : List (List Bucket)) (bb : List Bucket) :
    stream r render (brigades ++ [bb]) = (stream r render brigades).step r render bb := by
  rw [stream, List.foldl_append]
  rfl

/-- All brigades without EOS. -/
theorem after_stream (hactive : r.active) (hplain : ∀ bb ∈ init, Plain bb) :
    After r init (stream r render init) := by
  induction init using List.reverseRecOn with
  | nil => exact .waiting ⟨⟨rfl, rfl⟩, nofun, rfl, fun _ _ ↦ rfl, fun n _ ↦ Nat.zero_le n⟩ fun _ ↦ rfl
  | append_singleton init bb ih =>
    rw [stream_concat]
    refine ((ih fun bb' hbb' ↦ hplain bb' ?_).step hactive (hplain bb ?_)).1
    · exact List.mem_append_left _ hbb'
    · exact List.mem_append_right _ List.mem_cons_self

/-! ## The last brigade -/

variable {input last : List Bucket}

theorem SameBody.oneResponse {body : List Bucket} (h : SameBody body input) (hplain : Plain body) :
    OneResponse r render input (body ++ [.eos]) :=
  ⟨body, rfl, hplain, .unchanged h.bytes fun _ ↦ (h.mem_iff rfl).mp⟩

/-- The limit is crossed by the last brigade. -/
theorem oneResponse_oversize {ctx : FilterCtx} {rest : List Bucket}
    (hbody : SameBody (ctx.bb ++ rest) input) (hplain : Plain (ctx.bb ++ rest)) :
    OneResponse r render input (oversize r ctx (rest ++ [.eos])).out := by
  rw [oversize]
  split_ifs with hmode
  · exact ⟨[.error 502], rfl, by simp [Plain], .refused rfl⟩
  · dsimp only
    rw [← List.append_assoc]
    exact hbody.oneResponse hplain

/-- A body that is cut is not the one of the response. -/
theorem oneResponse_raw (hparses : ¬ r.parses) :
    OneResponse r render input [.data (cString (brigadeData input)), .eos] ↔
      0 ∉ brigadeData input := by
  rw [← cString_eq_iff]
  constructor
  · rintro ⟨body, hout, -, hdelivered⟩
    obtain rfl : [.data (cString (brigadeData input))] = body := List.append_cancel_right hout
    cases hdelivered with
    | unchanged hbytes _ => simpa [brigadeData, Bucket.bytes] using hbytes
    | processed hhandle _ =>
      rw [handle_of_not_parses hparses] at hhandle
      cases hhandle
    | refused hbody => cases hbody
  · intro heq
    refine ⟨[.data (cString (brigadeData input))], rfl, by simp [Plain], .unchanged ?_ (by simp)⟩
    rw [heq]
    exact List.append_nil _

/-- The body within the limit. -/
theorem oneResponse_finish {ctx : FilterCtx} (hheld : Held r.limit input ctx)
    (hdeclared : r.declaredOver = false) :
    OneResponse r render input (finish r render ctx.bb) ↔ ¬ CutRaw r input := by
  have hkept : OneResponse r render input (ctx.bb ++ [.eos]) := hheld.body.oneResponse hheld.plain
  have hbroken : ctx.bb.any (· = .broken) = true ↔ .broken ∈ input := by
    rw [← hheld.body.mem_iff rfl]
    simp
  rw [finish, flattenBrigade, hheld.body.bytes]
  split_ifs with hforce hread hlength
  · exact iff_of_true hkept fun hcut ↦ Bool.false_ne_true (hcut.2.2.2.2.1.symm.trans hforce)
  · exact iff_of_true hkept fun hcut ↦ hcut.2.2.2.2.2 (hbroken.mp hread)
  · dsimp only
    by_cases hparses : r.parses
    · obtain ⟨cfg, hcfg⟩ := handle_of_parses render hparses (brigadeData input)
      rw [hcfg]
      exact iff_of_true ⟨[.data _], rfl, by simp [Plain], .processed hcfg rfl⟩
        fun hcut ↦ hcut.1 hparses
    · rw [handle_of_not_parses hparses]
      dsimp only
      rw [oneResponse_raw hparses]
      refine not_congr ⟨fun hnul ↦ ⟨hparses, hnul, hdeclared, hheld.within, ?_, ?_⟩, fun hcut ↦ hcut.2.1⟩
      · exact Bool.eq_false_of_not_eq_true hforce
      · exact fun hmem ↦ hread (hbroken.mpr hmem)
  · refine iff_of_true hkept fun hcut ↦ hlength ?_
    exact List.length_pos_of_mem hcut.2.1

theorem not_cutRaw_of_over
    (hover : r.declaredOver = true ∨ ∃ n ∈ r.limit, n < (brigadeData input).length) :
    ¬ CutRaw r input := by
  rintro ⟨-, -, hdeclared, hunder, -⟩
  rcases hover with hover | ⟨n, hn, hover⟩
  · rw [hdeclared] at hover
    exact Bool.false_ne_true hover
  · exact absurd (hunder n hn) (Nat.not_le.mpr hover)

/-- A response that is waiting has not been refused. -/
theorem not_refusedEarly {ctx : FilterCtx} (hheld : Held r.limit init.flatten ctx)
    (hdeclared : r.declaredOver = true → init = []) : ¬ RefusedEarly r init := by
  rintro ⟨-, hinit, hover | ⟨n, hn, hover⟩⟩
  · exact hinit (hdeclared hover)
  · exact absurd (hheld.within n hn) (Nat.not_le.mpr hover)

variable (render) in
/-- The last brigade. -/
theorem After.final (hactive : r.active) (h : After r init s) (hplain : Plain last) :
    (OneResponse r render (init.flatten ++ last) (s.step r render (last ++ [.eos])).out ↔
        ¬ (RefusedEarly r init ∨ CutRaw r (init.flatten ++ last))) ∧
      ∀ n ∈ r.limit,
        (brigadeData (deliver r render s.state (last ++ [.eos])).held).length ≤ n := by
  cases h with
  | @waiting ctx hheld hdeclared =>
    have hearly := not_refusedEarly hheld hdeclared
    rw [Stream.step, deliver_of_active hactive hheld.passthrough]
    dsimp only [List.nil_append]
    by_cases hover : r.declaredOver = true
    · rw [if_pos hover, held_oversize, hheld.body.bytes]
      refine ⟨iff_of_true ?_ ?_, hheld.within⟩
      · exact oneResponse_oversize (hheld.body.append last) (hheld.plain.append hplain)
      · rw [not_or]
        exact ⟨hearly, not_cutRaw_of_over (.inl hover)⟩
    · rw [if_neg hover, moveBuckets_append_eos]
      have hmoved := movedTo_moveBuckets false hheld hplain
      revert hmoved
      generalize moveBuckets r.limit ctx false last = moved
      rintro (hall | ⟨hlimit, hcross, hbody, hwithin, hrest⟩)
      · refine ⟨?_, hall.body.bytes ▸ hall.within⟩
        rw [or_iff_right hearly]
        exact oneResponse_finish hall (Bool.eq_false_of_not_eq_true hover)
      · refine ⟨iff_of_true (oneResponse_oversize hbody hrest) ?_, ?_⟩
        · rw [not_or]
          exact ⟨hearly, not_cutRaw_of_over (.inr ⟨_, hlimit, hcross⟩)⟩
        · dsimp only [Option.map]
          rw [held_oversize, hlimit]
          rintro n ⟨⟩
          exact hwithin
  | passing hmode hpassthrough hbody hout hover =>
    rw [Stream.step, deliver_of_passthrough hactive hpassthrough]
    refine ⟨iff_of_true ?_ ?_, fun n _ ↦ Nat.zero_le n⟩
    · dsimp only
      rw [← List.append_assoc]
      exact (hbody.append last).oneResponse (hout.append hplain)
    · rw [not_or]
      refine ⟨fun hearly ↦ hmode hearly.1, not_cutRaw_of_over ?_⟩
      exact hover.imp_right fun ⟨n, hn, hover⟩ ↦ ⟨n, hn, over_append hover last⟩
  | refused h =>
    refine ⟨iff_of_false ?_ (not_not.mpr (.inl h)), fun n _ ↦ Nat.zero_le n⟩
    -- the EOS after the 502 is not the last bucket
    rintro ⟨body, hout, hplainBody, -⟩
    rw [Stream.step, deliver, if_pos rfl, List.cons_append, List.cons_append,
      ← List.append_assoc] at hout
    have hbody : .error 502 :: .eos :: (_ ++ last) = body := List.append_cancel_right hout
    exact hplainBody .eos (hbody ▸ by simp) rfl

/-- The filter lets a response alone. -/
theorem deliver_of_not_active (h : ¬ r.active) (state : FilterState) :
    (deliver r render state bb).out = bb ∧ (deliver r render state bb).held = [] := by
  rw [deliver]
  split_ifs with hremoved
  · exact ⟨rfl, rfl⟩
  · rw [mesiResponseFilter]
    by_cases henable : r.conf.enableMesi = true
    · have hignored : r.ignored = true := by
        by_contra hignored
        exact h ⟨henable, Bool.eq_false_of_not_eq_true hignored⟩
      rw [if_neg (not_not.mpr henable), if_pos hignored]
      exact ⟨rfl, rfl⟩
    · rw [if_pos henable]
      exact ⟨rfl, rfl⟩

theorem stream_of_not_active (h : ¬ r.active) (brigades : List (List Bucket)) :
    (stream r render brigades).out = brigades.flatten := by
  induction brigades using List.reverseRecOn with
  | nil => rfl
  | append_singleton brigades bb ih =>
    rw [stream_concat, flatten_concat, Stream.step, (deliver_of_not_active h _).1, ih]

theorem plain_flatten (h : ∀ bb ∈ init, Plain bb) : Plain init.flatten := by
  intro b hb
  obtain ⟨bb, hbb, hb⟩ := List.mem_flatten.mp hb
  exact h bb hbb b hb

end Runs

/-- **Main result.** What the next filter gets of a response is its body, a body parsed by libgomesi
or a 502, with one EOS at the end, unless the response is refused before its last brigade or an
unparsed body is cut at a NUL byte. -/
theorem wholeResponse_iff (r : FilterRequest) (render : Bytes → EsiParserConfig → Bytes)
    (init : List (List Bucket)) (last : List Bucket) (hinit : ∀ bb ∈ init, Plain bb)
    (hlast : Plain last) :
    WholeResponse r render init last ↔
      ¬ (r.active ∧ (RefusedEarly r init ∨ CutRaw r (init.flatten ++ last))) := by
  by_cases hactive : r.active
  · have hafter : After r init (stream r render init) := after_stream hactive hinit
    obtain ⟨hone, hheld⟩ := hafter.final render hactive hlast
    rw [WholeResponse, stream_concat, hone, and_iff_right hactive, and_iff_left_iff_imp]
    rintro - before bb hpre
    rcases List.prefix_concat_iff.mp hpre with heq | hpre
    · obtain ⟨rfl, hbb⟩ := List.append_inj' heq rfl
      obtain rfl : bb = last ++ [.eos] := List.singleton_inj.mp hbb
      exact hheld
    · have hmem (bb' : List Bucket) (h : bb' ∈ before ++ [bb]) : Plain bb' :=
        hinit bb' (hpre.subset h)
      exact ((after_stream hactive fun bb' h ↦ hmem bb' (List.mem_append_left _ h)).step hactive
        (hmem bb (List.mem_append_right _ List.mem_cons_self))).2
  · refine iff_of_true ⟨?_, fun before bb _ n _ ↦ ?_⟩ fun h ↦ hactive h.1
    · rw [stream_of_not_active hactive, flatten_concat, ← List.append_assoc]
      exact SameBody.oneResponse ⟨rfl, rfl⟩ ((plain_flatten hinit).append hlast)
    · rw [(deliver_of_not_active hactive _).2]
      exact Nat.zero_le n

/-- A page of two bytes with a limit of one, which refuses what is larger. -/
def chunkedRequest : FilterRequest where
  conf := { enableMesi := true }
  maxBodySize := 1
  onOversize := .error
  contentType := some (lit "text/html")

theorem wholeResponse_iff_oneBrigade :
    WholeResponse chunkedRequest (fun input _ ↦ input) [] [.data (lit "ab")] := by
  refine (wholeResponse_iff chunkedRequest _ [] [.data (lit "ab")] nofun ?_).mpr ?_
  · simp [Plain]
  · rintro ⟨-, ⟨-, hinit, -⟩ | ⟨-, hnul, -⟩⟩
    · exact hinit rfl
    · exact absurd hnul (by decide)

/-- In two brigades the response is refused, and its end is sent after the 502. -/
theorem not_wholeResponse :
    ¬ ∀ (r : FilterRequest) (render : Bytes → EsiParserConfig → Bytes) (init : List (List Bucket))
      (last : List Bucket), (∀ bb ∈ init, Plain bb) → Plain last → WholeResponse r render init last := by
  intro h
  have hwhole := h chunkedRequest (fun input _ ↦ input) [[.data (lit "ab")]] []
    (by simp [Plain]) (by simp [Plain])
  obtain ⟨⟨body, hout, hplain, -⟩, -⟩ := hwhole
  have hsent : (stream chunkedRequest (fun input _ ↦ input) [[.data (lit "ab")], [.eos]]).out =
      [.error 502, .eos] ++ [.eos] := by decide +kernel
  have hbody : [.error 502, .eos] = body := List.append_cancel_right (hsent.symm.trans hout)
  exact hplain .eos (hbody ▸ by simp) rfl

end Apache

end GoMesi
