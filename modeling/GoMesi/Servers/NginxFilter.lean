import GoMesi.Middleware.ResponseWriter
import GoMesi.Servers.EdgeControl

/-!
# The filters of the nginx module

nginx hands a response to the module piece by piece: the headers once, then the body as chains of
buffers, split in any way, with empty buffers and with calls that only wake the chain up. The header
filter decides which responses are collected. The body filter collects them, and at the buffer that
ends the response passes the parsed body on. If a limit is set and the body crosses it, what has been
collected is passed on as it is, and so is everything that follows.

The buffer that ends a response is marked by `last_buf`, the one that ends a subrequest by
`last_in_chain` alone. The body filter looks at the first mark only, so that the body of a subrequest
is collected and never passed on.
-/

namespace GoMesi

open Strings

namespace Nginx

/-! ## Configuration and headers -/

/-- `ngx_http_mesi_loc_conf_t`, as far as the filters read it. Of the last two the filters need only
whether they are empty. -/
structure LocConf where
  enableMesi : Bool
  /-- `0` for no limit. -/
  maxBodySize : ℤ := 0
  onOversize : OnOversize := .pass
  /-- `mesi_parse_on_header`, `none` for unset. -/
  parseOnHeader : Option Bool := none
  allowedHosts : Bytes := []

/-- An entry of the list of headers. -/
structure TableElt where
  hash : ℕ
  key : Bytes
  value : Bytes

/-- A response, as the header filter sees it. -/
structure HeadersOut where
  headerOnly : Bool := false
  /-- `-1` if it is not known. -/
  contentLengthN : ℤ := -1
  /-- The value of `Content-Encoding`. -/
  contentEncoding : Option Bytes := none
  contentType : Bytes
  status : ℕ := 200
  headers : List TableElt := []

/-- `ngx_test_content_compression` -/
def testContentCompression (r : HeadersOut) : Bool :=
  match r.contentEncoding with
  | none => false
  | some value => decide (value.length ≠ 0)

/-- `ngx_test_is_html`. `ngx_strnstr` stops at a NUL byte. -/
def testIsHtml (r : HeadersOut) : Bool :=
  if r.contentType.length = 0 then false
  else contains ((r.contentType.map asciiLower).takeWhile (· != 0)) (lit "text/html")

/-- `ngx_http_mesi_has_esi_header` -/
def hasEsiHeader (r : HeadersOut) : Bool :=
  r.headers.any fun h ↦
    decide (h.hash ≠ 0) && (decide (h.key.length = (lit "Edge-control").length) &&
      strncasecmpEq h.key (lit "Edge-control")) && mesiHeaderSignalsEsi h.value

/-- What the header filter does with a response. -/
inductive HeadVerdict
  /-- It is passed on. -/
  | next
  /-- It is passed on as an internal error. -/
  | internalServerError
  /-- It is replaced by 502. -/
  | badGateway
  /-- It gets a context, and the body filter collects it. -/
  | collect
  deriving DecidableEq, Repr

/-- `ngx_http_html_mesi_head_filter`, when no allocation fails. `withConfig` says whether libgomesi
has `ParseWithConfig`. -/
def headFilter (conf : LocConf) (withConfig : Bool) (r : HeadersOut) : HeadVerdict :=
  if ¬ conf.enableMesi then .next
  else if r.headerOnly ∨ r.contentLengthN = 0 then .next
  else if testContentCompression r then .next
  else if ¬ testIsHtml r then .next
  else if 400 < r.status then .next
  else if conf.parseOnHeader = some true ∧ ¬ hasEsiHeader r then .next
  else if 0 < conf.maxBodySize ∧ conf.maxBodySize < r.contentLengthN then
    if conf.onOversize = .error then .badGateway else .next
  else if 0 < conf.allowedHosts.length ∧ ¬ withConfig then .internalServerError
  else .collect

/-! ## Buffers -/

/-- `ngx_buf_t`: the bytes that `ngx_buf_size` counts, the marks, and where the bytes are. A buffer
that is in a file has been read into memory before it comes to the filters. -/
structure Buf where
  data : Bytes := []
  lastBuf : Bool := false
  lastInChain : Bool := false
  flush : Bool := false
  sync : Bool := false
  temporary : Bool := false
  memory : Bool := false
  mmap : Bool := false
  inFile : Bool := false
  deriving DecidableEq, Repr

/-- The bytes of a chain. -/
def chainData (chain : List Buf) : Bytes := chain.flatMap Buf.data

/-- `ngx_http_html_head_filter_ctx_t` -/
structure Ctx where
  accumulated : Bytes := []
  capacity : ℕ := 0
  done : Bool := false
  passthrough : Bool := false

/-- What a filter returns. -/
inductive Code
  | ok | again | error
  deriving DecidableEq, Repr

/-- The answers of nginx during a call: which allocations succeed, and what the next filter
returns. -/
structure Answers where
  /-- The new array for the buffer before some others. -/
  grow : List Buf → Bool := fun _ ↦ true
  /-- The link and the buffer for what has been collected. -/
  head : Bool := true
  /-- The link and the buffer for the parsed body. -/
  out : Bool := true
  next : Code := .ok

/-- How a call ends: with a call of the next filter, or by itself. -/
inductive Outcome
  | next (chain : List Buf)
  | return_ (code : Code)

/-- The loop that doubles `new_cap`. -/
def doubled (newCap newLen : ℕ) : ℕ :=
  if h : 0 < newCap ∧ newCap < newLen then doubled (newCap * 2) newLen else newCap
termination_by newLen - newCap
decreasing_by omega

/-- The capacity for `new_len` bytes. -/
def newCapacity (conf : LocConf) (pagesize capacity newLen : ℕ) : ℕ :=
  let newCap := doubled (if capacity ≠ 0 then capacity else pagesize) newLen
  if 0 < conf.maxBodySize ∧ conf.maxBodySize < newCap then conf.maxBodySize.toNat else newCap

section

variable (conf : LocConf) (pagesize : ℕ) (parse : Bytes → Bytes) (ans : Answers)

/-- The part of the loop that collects a buffer: the context after it, or how the call ends. -/
def collect (ctx : Ctx) (buf : Buf) (rest : List Buf) : Ctx × Option Outcome :=
  if 0 < buf.data.length ∧ ¬ ctx.done then
    let newLen := ctx.accumulated.length + buf.data.length
    if 0 < conf.maxBodySize ∧ conf.maxBodySize < newLen then
      if conf.onOversize = .error then (ctx, some (.return_ .error))
      else
        let passing := { ctx with passthrough := true }
        if 0 < ctx.accumulated.length then
          if ¬ ans.head then (passing, some (.return_ .error))
          else (passing, some (.next ({ data := ctx.accumulated, memory := true } :: buf :: rest)))
        else (passing, some (.next (buf :: rest)))
    else if ctx.capacity < newLen then
      if ¬ ans.grow rest then (ctx, some (.return_ .error))
      else
        ({ ctx with
            accumulated := ctx.accumulated ++ buf.data
            capacity := newCapacity conf pagesize ctx.capacity newLen }, none)
    else ({ ctx with accumulated := ctx.accumulated ++ buf.data }, none)
  else (ctx, none)

/-- The buffer for the parsed body. -/
def lastBuffer (parsed : Bytes) : Buf := { data := parsed, memory := true, lastBuf := true }

/-- The loop over the chain: the context after it, the body that has been parsed, and how the call
ends. -/
def bufferLoop (ctx : Ctx) : List Buf → Ctx × Option Bytes × Outcome
  | [] => (ctx, none, .return_ .ok)
  | buf :: rest =>
    match collect conf pagesize ans ctx buf rest with
    | (ctx, some outcome) => (ctx, none, outcome)
    | (ctx, none) =>
      if buf.lastBuf ∧ ¬ ctx.done then
        let ctx := { ctx with done := true }
        if ¬ ans.out then (ctx, some ctx.accumulated, .return_ .error)
        else (ctx, some ctx.accumulated, .next [lastBuffer (parse ctx.accumulated)])
      else bufferLoop ctx rest

/-- `ngx_http_html_mesi_body_filter` for a response with a context. `goModule` says whether libgomesi
has been loaded. -/
def bodyFilter (goModule : Bool) (ctx : Ctx) (chain : List Buf) : Ctx × Option Bytes × Outcome :=
  if ¬ conf.enableMesi then (ctx, none, .next chain)
  else if ¬ goModule then (ctx, none, .next chain)
  else if ctx.passthrough then (ctx, none, .next chain)
  else
    match bufferLoop conf pagesize parse ans ctx chain with
    | (ctx, parsed, .return_ .ok) =>
      if chain = [] then (ctx, parsed, .next []) else (ctx, parsed, .return_ .ok)
    | reply => reply

end

/-! ## Runs -/

/-- A call of the body filter: the chain, `[]` for `NULL`, and the answers of nginx. -/
structure FilterCall where
  chain : List Buf
  answers : Answers := {}

/-- A response on its way: the context, what has been passed to the next filter, the bodies that
have been parsed, and whether a call has returned an error. -/
structure Transfer where
  ctx : Ctx := {}
  passed : List Buf := []
  parsed : List Bytes := []
  failed : Bool := false

variable (conf : LocConf) (pagesize : ℕ) (parse : Bytes → Bytes) (goModule : Bool)

/-- One call. -/
def Transfer.step (s : Transfer) (call : FilterCall) : Transfer :=
  let (ctx, parsed, outcome) :=
    bodyFilter conf pagesize parse call.answers goModule s.ctx call.chain
  let (passed, code) := match outcome with
    | .next chain => (chain, call.answers.next)
    | .return_ code => ([], code)
  { ctx
    passed := s.passed ++ passed
    parsed := s.parsed ++ parsed.toList
    failed := s.failed || decide (code = .error) }

/-- All calls for a response. -/
def transfer (calls : List FilterCall) : Transfer :=
  calls.foldl (Transfer.step conf pagesize parse goModule) {}

/-! ## The buffer -/

/-- The limit is set, and some bytes are over it. -/
def Over (data : Bytes) : Prop := 0 < conf.maxBodySize ∧ conf.maxBodySize < data.length

/-- What is collected fits into its array, and the array is within the limit. -/
structure Bounded (ctx : Ctx) : Prop where
  fits : ctx.accumulated.length ≤ ctx.capacity
  within : 0 < conf.maxBodySize → (ctx.capacity : ℤ) ≤ conf.maxBodySize

theorem le_doubled {newCap : ℕ} (newLen : ℕ) (hpos : 0 < newCap) : newLen ≤ doubled newCap newLen := by
  fun_induction doubled newCap newLen with
  | case1 newCap h ih => exact ih (by omega)
  | case2 newCap h => omega

variable {conf pagesize parse goModule}

theorem newCapacity_spec (capacity : ℕ) {newLen : ℕ} (hpage : 0 < pagesize)
    (hlimit : ¬ (0 < conf.maxBodySize ∧ conf.maxBodySize < newLen)) :
    newLen ≤ newCapacity conf pagesize capacity newLen ∧
      (0 < conf.maxBodySize →
        (newCapacity conf pagesize capacity newLen : ℤ) ≤ conf.maxBodySize) := by
  have hstart : 0 < if capacity ≠ 0 then capacity else pagesize := by
    split_ifs with hcapacity
    · exact Nat.pos_of_ne_zero hcapacity
    · exact hpage
  have hle := le_doubled newLen hstart
  rw [newCapacity]
  generalize (if capacity ≠ 0 then capacity else pagesize) = start at *
  split_ifs with hcap
  · have hlen : (newLen : ℤ) ≤ conf.maxBodySize := not_lt.mp fun hlt ↦ hlimit ⟨hcap.1, hlt⟩
    constructor
    · omega
    · intro hpos
      omega
  · constructor
    · exact hle
    · intro hpos
      exact not_lt.mp fun hlt ↦ hcap ⟨hpos, hlt⟩

/-! ## One buffer -/

/-- The body up to here has been collected. -/
structure Collecting (conf : LocConf) (data : Bytes) (ctx : Ctx) : Prop where
  accumulated : ctx.accumulated = data
  done : ctx.done = false
  passthrough : ctx.passthrough = false
  bounded : Bounded conf ctx

theorem Collecting.not_over {data : Bytes} {ctx : Ctx} (h : Collecting conf data ctx) :
    ¬ Over conf data := by
  rintro ⟨hpos, hlt⟩
  have hfits := h.bounded.fits
  have hwithin := h.bounded.within hpos
  rw [h.accumulated] at hfits
  omega

/-- A buffer is collected, or the limit is crossed and everything is passed on, or there is an
error. -/
theorem collect_spec (hpage : 0 < pagesize) (ans : Answers) {data : Bytes} {ctx : Ctx}
    (h : Collecting conf data ctx) (buf : Buf) (rest : List Buf) :
    (∃ ctx', collect conf pagesize ans ctx buf rest = (ctx', none) ∧
        Collecting conf (data ++ buf.data) ctx') ∨
      (∃ ctx', collect conf pagesize ans ctx buf rest = (ctx', some (.return_ .error))) ∨
      ∃ ctx' chain, collect conf pagesize ans ctx buf rest = (ctx', some (.next chain)) ∧
        ctx'.passthrough = true ∧ Bounded conf ctx' ∧ Over conf (data ++ buf.data) ∧
        chainData chain = data ++ buf.data ++ chainData rest := by
  have hdata := h.accumulated
  rw [collect]
  by_cases hsize : 0 < buf.data.length
  swap
  · have hnil : buf.data = [] := List.length_eq_zero_iff.mp (by omega)
    rw [if_neg fun hc ↦ hsize hc.1]
    exact .inl ⟨ctx, rfl, by rw [hnil, List.append_nil]; exact h⟩
  have hdone : ¬ ctx.done = true := by
    rw [h.done]
    decide
  rw [if_pos ⟨hsize, hdone⟩]
  have hlength : ((data ++ buf.data).length : ℤ) = ctx.accumulated.length + buf.data.length := by
    rw [List.length_append, hdata]
    push_cast
    rfl
  by_cases hlimit : 0 < conf.maxBodySize ∧
      conf.maxBodySize < ((ctx.accumulated.length + buf.data.length : ℕ) : ℤ)
  · rw [if_pos hlimit]
    have hover : Over conf (data ++ buf.data) := by
      refine ⟨hlimit.1, ?_⟩
      rw [hlength]
      exact_mod_cast hlimit.2
    by_cases herror : conf.onOversize = .error
    · rw [if_pos herror]
      exact .inr (.inl ⟨ctx, rfl⟩)
    rw [if_neg herror]
    dsimp only
    have hbounded : Bounded conf { ctx with passthrough := true } :=
      ⟨h.bounded.fits, h.bounded.within⟩
    by_cases hhead : 0 < ctx.accumulated.length
    · rw [if_pos hhead]
      split_ifs with halloc
      · refine .inr (.inr ⟨_, _, rfl, rfl, hbounded, hover, ?_⟩)
        rw [chainData, List.flatMap_cons, List.flatMap_cons, hdata, List.append_assoc]
        rfl
      · exact .inr (.inl ⟨_, rfl⟩)
    · rw [if_neg hhead]
      have hnil : data = [] := by
        rw [← hdata]
        exact List.length_eq_zero_iff.mp (by omega)
      refine .inr (.inr ⟨_, _, rfl, rfl, hbounded, hover, ?_⟩)
      rw [chainData, List.flatMap_cons, hnil, List.nil_append]
      rfl
  · rw [if_neg hlimit]
    by_cases hcapacity : ctx.capacity < ctx.accumulated.length + buf.data.length
    · rw [if_pos hcapacity]
      split_ifs with halloc
      · refine .inl ⟨_, rfl, ?_, h.done, h.passthrough, ?_⟩
        · rw [← hdata]
        · obtain ⟨hfits, hwithin⟩ := newCapacity_spec ctx.capacity hpage hlimit
          constructor
          · dsimp only
            rw [List.length_append]
            exact hfits
          · exact hwithin
      · exact .inr (.inl ⟨_, rfl⟩)
    · rw [if_neg hcapacity]
      refine .inl ⟨_, rfl, ?_, h.done, h.passthrough, ?_, h.bounded.within⟩
      · rw [← hdata]
      · dsimp only
        rw [List.length_append]
        omega

/-! ## One call -/

/-- No buffer ends the response. -/
def NoLast (chain : List Buf) : Prop := ∀ b ∈ chain, b.lastBuf = false

/-- How a call ends that started while the body was collected. -/
inductive Looped (conf : LocConf) (parse : Bytes → Bytes) (data : Bytes) (chain : List Buf) :
    Ctx × Option Bytes × Outcome → Prop
  /-- All of the chain has been collected. -/
  | collected {ctx : Ctx} (h : Collecting conf (data ++ chainData chain) ctx) (hlast : NoLast chain) :
    Looped conf parse data chain (ctx, none, .return_ .ok)
  /-- The limit has been crossed, and the rest of the chain follows what has been collected. -/
  | passing {ctx : Ctx} {passed : List Buf} (hpass : ctx.passthrough = true)
    (hbounded : Bounded conf ctx) (hover : Over conf (data ++ chainData chain))
    (hpassed : chainData passed = data ++ chainData chain) :
    Looped conf parse data chain (ctx, none, .next passed)
  /-- The response has ended. -/
  | finished {ctx : Ctx} {pre post : List Buf} {b out : Buf} (hchain : chain = pre ++ b :: post)
    (hlast : NoLast pre) (hb : b.lastBuf = true) (hdone : ctx.done = true)
    (hpass : ctx.passthrough = false) (hbounded : Bounded conf ctx)
    (hover : ¬ Over conf (data ++ chainData (pre ++ [b])))
    (hout : out.data = parse (data ++ chainData (pre ++ [b]))) :
    Looped conf parse data chain (ctx, some (data ++ chainData (pre ++ [b])), .next [out])
  | failed {ctx : Ctx} {parsed : Option Bytes} :
    Looped conf parse data chain (ctx, parsed, .return_ .error)

instance (chain : List Buf) : Decidable (NoLast chain) :=
  inferInstanceAs (Decidable (∀ b ∈ chain, b.lastBuf = false))

theorem chainData_cons (b : Buf) (chain : List Buf) :
    chainData (b :: chain) = b.data ++ chainData chain := rfl

theorem chainData_append (chain chain' : List Buf) :
    chainData (chain ++ chain') = chainData chain ++ chainData chain' := List.flatMap_append

theorem Over.append {data : Bytes} (h : Over conf data) (more : Bytes) :
    Over conf (data ++ more) := by
  refine ⟨h.1, h.2.trans_le ?_⟩
  rw [List.length_append]
  omega

/-- What is seen of a buffer in front of the chain. -/
theorem Looped.cons {data : Bytes} {b : Buf} {chain : List Buf} (hb : b.lastBuf = false)
    {reply : Ctx × Option Bytes × Outcome} (h : Looped conf parse (data ++ b.data) chain reply) :
    Looped conf parse data (b :: chain) reply := by
  have happend (rest : List Buf) :
      data ++ b.data ++ chainData rest = data ++ chainData (b :: rest) := by
    rw [chainData_cons, List.append_assoc]
  have hlast {rest : List Buf} (hrest : NoLast rest) : NoLast (b :: rest) := by
    intro b' hb'
    rcases List.mem_cons.mp hb' with rfl | hb'
    · exact hb
    · exact hrest b' hb'
  cases h with
  | collected h hrest => exact .collected (happend chain ▸ h) (hlast hrest)
  | passing hpass hbounded hover hpassed =>
    exact .passing hpass hbounded (happend chain ▸ hover) (hpassed.trans (happend chain))
  | @finished ctx pre post b' out hchain hrest hb' hdone hpass hbounded hover hout =>
    rw [happend (pre ++ [b'])] at hover hout ⊢
    have hchain' : b :: chain = (b :: pre) ++ b' :: post := by
      rw [hchain]
      rfl
    exact .finished hchain' (hlast hrest) hb' hdone hpass hbounded hover hout
  | failed => exact .failed

theorem looped_bufferLoop (hpage : 0 < pagesize) {ans : Answers} {data : Bytes} {ctx : Ctx}
    (h : Collecting conf data ctx) (chain : List Buf) :
    Looped conf parse data chain (bufferLoop conf pagesize parse ans ctx chain) := by
  induction chain generalizing ctx data with
  | nil =>
    refine .collected ?_ nofun
    rw [chainData, List.flatMap_nil, List.append_nil]
    exact h
  | cons buf rest ih =>
    rw [bufferLoop]
    rcases collect_spec hpage ans h buf rest with
      ⟨ctx', heq, h'⟩ | ⟨ctx', heq⟩ | ⟨ctx', passed, heq, hpass, hbounded, hover, hpassed⟩
    · rw [heq]
      dsimp only
      by_cases hlast : buf.lastBuf = true
      · have hdone : ¬ ctx'.done = true := by
          rw [h'.done]
          decide
        rw [if_pos ⟨hlast, hdone⟩, h'.accumulated]
        split_ifs
        · have hdata : data ++ buf.data = data ++ chainData ([] ++ [buf]) := by
            rw [List.nil_append, chainData_cons, chainData, List.flatMap_nil, List.append_nil]
          rw [hdata] at h' ⊢
          refine .finished (List.nil_append (buf :: rest)).symm nofun hlast rfl h'.passthrough
            ⟨?_, h'.bounded.within⟩ h'.not_over rfl
          have hfits := h'.bounded.fits
          rw [h'.accumulated] at hfits
          exact hfits
        · exact .failed
      · rw [if_neg fun hc ↦ hlast hc.1]
        exact (ih h').cons (Bool.eq_false_iff.mpr hlast)
    · rw [heq]
      exact .failed
    · rw [heq]
      rw [List.append_assoc] at hpassed
      refine .passing hpass hbounded ?_ hpassed
      rw [chainData_cons, ← List.append_assoc]
      exact hover.append _

/-- A response that has ended stays ended. -/
theorem bufferLoop_of_done {ans : Answers} {ctx : Ctx} (h : ctx.done = true) (chain : List Buf) :
    bufferLoop conf pagesize parse ans ctx chain = (ctx, none, .return_ .ok) := by
  induction chain with
  | nil => rfl
  | cons buf rest ih =>
    have hcollect : collect conf pagesize ans ctx buf rest = (ctx, none) :=
      if_neg fun hc ↦ hc.2 h
    rw [bufferLoop, hcollect]
    dsimp only
    rw [if_neg fun hc ↦ hc.2 h]
    exact ih

/-! ## All calls -/

/-- How far a response is, after the buffers `seen`. -/
inductive Phase (conf : LocConf) (parse : Bytes → Bytes) (seen : List Buf) (s : Transfer) : Prop
  | collecting (h : Collecting conf (chainData seen) s.ctx) (hlast : NoLast seen)
    (hpassed : chainData s.passed = []) (hparsed : s.parsed = [])
  | passing (hpass : s.ctx.passthrough = true) (hbounded : Bounded conf s.ctx)
    (hover : Over conf (chainData seen)) (hpassed : chainData s.passed = chainData seen)
    (hparsed : s.parsed = [])
  | finished (pre post : List Buf) (b : Buf) (hseen : seen = pre ++ b :: post) (hlast : NoLast pre)
    (hb : b.lastBuf = true) (hdone : s.ctx.done = true) (hpass : s.ctx.passthrough = false)
    (hbounded : Bounded conf s.ctx) (hover : ¬ Over conf (chainData (pre ++ [b])))
    (hpassed : chainData s.passed = parse (chainData (pre ++ [b])))
    (hparsed : s.parsed = [chainData (pre ++ [b])])

theorem Phase.bounded {seen : List Buf} {s : Transfer} (h : Phase conf parse seen s) :
    Bounded conf s.ctx := by
  cases h with
  | collecting h _ _ _ => exact h.bounded
  | passing _ hbounded _ _ _ => exact hbounded
  | finished _ _ _ _ _ _ _ _ hbounded _ _ _ => exact hbounded

theorem Phase.initial : Phase conf parse [] {} :=
  .collecting ⟨rfl, rfl, rfl, le_refl 0, fun hpos ↦ hpos.le⟩ nofun rfl rfl

theorem Transfer.step_of_next {s : Transfer} {call : FilterCall} {ctx : Ctx}
    {parsed : Option Bytes} {chain : List Buf}
    (h : bodyFilter conf pagesize parse call.answers goModule s.ctx call.chain =
      (ctx, parsed, .next chain)) :
    s.step conf pagesize parse goModule call =
      { ctx
        passed := s.passed ++ chain
        parsed := s.parsed ++ parsed.toList
        failed := s.failed || decide (call.answers.next = .error) } := by
  rw [Transfer.step, h]

theorem Transfer.step_of_return {s : Transfer} {call : FilterCall} {ctx : Ctx}
    {parsed : Option Bytes} {code : Code}
    (h : bodyFilter conf pagesize parse call.answers goModule s.ctx call.chain =
      (ctx, parsed, .return_ code)) :
    s.step conf pagesize parse goModule call =
      { ctx
        passed := s.passed
        parsed := s.parsed ++ parsed.toList
        failed := s.failed || decide (code = .error) } := by
  rw [Transfer.step, h]
  dsimp only
  rw [List.append_nil]

section

variable (henable : conf.enableMesi = true)

include henable

/-- Until the limit is crossed the loop decides how a call ends. -/
theorem bodyFilter_of_loop {ans : Answers} {ctx ctx' : Ctx} (hpass : ctx.passthrough = false)
    {chain : List Buf} {parsed : Option Bytes} {outcome : Outcome}
    (h : bufferLoop conf pagesize parse ans ctx chain = (ctx', parsed, outcome))
    (hok : outcome ≠ .return_ .ok) :
    bodyFilter conf pagesize parse ans true ctx chain = (ctx', parsed, outcome) := by
  have hnot : ¬ ctx.passthrough = true := by
    rw [hpass]
    decide
  rw [bodyFilter, if_neg (not_not.mpr henable), if_neg (by decide), if_neg hnot, h]
  cases outcome with
  | next passed => rfl
  | return_ code =>
    cases code with
    | ok => exact absurd rfl hok
    | again => rfl
    | error => rfl

/-- A call that passes nothing on. -/
theorem Transfer.step_of_ok {s : Transfer} {call : FilterCall} {ctx : Ctx}
    {parsed : Option Bytes} (hpass : s.ctx.passthrough = false)
    (h : bufferLoop conf pagesize parse call.answers s.ctx call.chain =
      (ctx, parsed, .return_ .ok)) :
    (s.step conf pagesize parse true call).ctx = ctx ∧
      (s.step conf pagesize parse true call).passed = s.passed ∧
      (s.step conf pagesize parse true call).parsed = s.parsed ++ parsed.toList := by
  have hnot : ¬ s.ctx.passthrough = true := by
    rw [hpass]
    decide
  have hfilter : bodyFilter conf pagesize parse call.answers true s.ctx call.chain =
      if call.chain = [] then (ctx, parsed, .next []) else (ctx, parsed, .return_ .ok) := by
    rw [bodyFilter, if_neg (not_not.mpr henable), if_neg (by decide), if_neg hnot, h]
  by_cases hchain : call.chain = []
  · rw [if_pos hchain] at hfilter
    rw [step_of_next hfilter]
    exact ⟨rfl, List.append_nil _, rfl⟩
  · rw [if_neg hchain] at hfilter
    rw [step_of_return hfilter]
    exact ⟨rfl, rfl, rfl⟩

/-- One call that does not return an error. -/
theorem Phase.step (hpage : 0 < pagesize) {seen : List Buf} {s : Transfer}
    (h : Phase conf parse seen s) (call : FilterCall)
    (hfailed : (s.step conf pagesize parse true call).failed = false) :
    Phase conf parse (seen ++ call.chain) (s.step conf pagesize parse true call) := by
  have hseen := chainData_append seen call.chain
  cases h with
  | collecting hctx hlast hpassed hparsed =>
    have hlooped : Looped conf parse (chainData seen) call.chain
        (bufferLoop conf pagesize parse call.answers s.ctx call.chain) :=
      looped_bufferLoop hpage hctx call.chain
    generalize hreply : bufferLoop conf pagesize parse call.answers s.ctx call.chain = reply at *
    cases hlooped with
    | collected h' hlast' =>
      obtain ⟨hctx', hpassed', hparsed'⟩ := Transfer.step_of_ok henable hctx.passthrough hreply
      refine .collecting ?_ ?_ ?_ ?_
      · rw [hctx', hseen]
        exact h'
      · intro b hb
        rcases List.mem_append.mp hb with hb | hb
        · exact hlast b hb
        · exact hlast' b hb
      · rw [hpassed', hpassed]
      · rw [hparsed', hparsed]
        rfl
    | passing hpass hbounded hover hpassed' =>
      rw [Transfer.step_of_next (bodyFilter_of_loop henable hctx.passthrough hreply (by rintro ⟨⟩))]
      refine .passing hpass hbounded (hseen ▸ hover) ?_ ?_
      · dsimp only
        rw [chainData_append, hpassed, List.nil_append, hpassed', hseen]
      · dsimp only
        rw [hparsed]
        rfl
    | @finished ctx pre post b out hchain hlast' hb hdone hpass hbounded hover hout =>
      rw [Transfer.step_of_next (bodyFilter_of_loop henable hctx.passthrough hreply (by rintro ⟨⟩))]
      have hpre : chainData seen ++ chainData (pre ++ [b]) = chainData (seen ++ pre ++ [b]) := by
        rw [List.append_assoc, chainData_append seen]
      rw [hpre] at hover hout ⊢
      refine .finished (seen ++ pre) post b ?_ ?_ hb hdone hpass hbounded hover ?_ ?_
      · rw [hchain, List.append_assoc]
      · intro b' hb'
        rcases List.mem_append.mp hb' with hb' | hb'
        · exact hlast b' hb'
        · exact hlast' b' hb'
      · dsimp only
        rw [chainData_append, hpassed, List.nil_append, ← hout]
        exact List.append_nil _
      · dsimp only
        rw [hparsed]
        rfl
    | failed =>
      have herror := bodyFilter_of_loop henable hctx.passthrough hreply (by rintro ⟨⟩)
      rw [Transfer.step_of_return herror] at hfailed
      simp at hfailed
  | passing hpass hbounded hover hpassed hparsed =>
    have hfilter : bodyFilter conf pagesize parse call.answers true s.ctx call.chain =
        (s.ctx, none, .next call.chain) := by
      rw [bodyFilter, if_neg (not_not.mpr henable), if_neg (by decide), if_pos hpass]
    rw [Transfer.step_of_next hfilter]
    refine .passing hpass hbounded (hseen ▸ hover.append _) ?_ ?_
    · dsimp only
      rw [chainData_append, hpassed, hseen]
    · dsimp only
      rw [hparsed]
      rfl
  | finished pre post b hseen' hlast hb hdone hpass hbounded hover hpassed hparsed =>
    have hloop : bufferLoop conf pagesize parse call.answers s.ctx call.chain =
        (s.ctx, none, .return_ .ok) := bufferLoop_of_done hdone call.chain
    obtain ⟨hctx', hpassed', hparsed'⟩ := Transfer.step_of_ok henable hpass hloop
    refine .finished pre (post ++ call.chain) b ?_ hlast hb ?_ ?_ ?_ hover ?_ ?_
    · rw [hseen', List.append_assoc]
      rfl
    · rw [hctx', hdone]
    · rw [hctx', hpass]
    · rw [hctx']
      exact hbounded
    · rw [hpassed', hpassed]
    · rw [hparsed', hparsed]
      rfl

end

theorem Transfer.failed_of_step {s : Transfer} {call : FilterCall}
    (h : (s.step conf pagesize parse goModule call).failed = false) : s.failed = false := by
  rw [Transfer.step] at h
  exact (Bool.or_eq_false_iff.mp h).1

/-- The buffers of some calls. -/
def callBufs (calls : List FilterCall) : List Buf := calls.flatMap FilterCall.chain

theorem transfer_append (calls : List FilterCall) (call : FilterCall) :
    transfer conf pagesize parse goModule (calls ++ [call]) =
      (transfer conf pagesize parse goModule calls).step conf pagesize parse goModule call := by
  rw [transfer, List.foldl_append]
  rfl

/-- Any number of calls of which none has returned an error. -/
theorem phase_transfer (henable : conf.enableMesi = true) (hpage : 0 < pagesize)
    (calls : List FilterCall) (hfailed : (transfer conf pagesize parse true calls).failed = false) :
    Phase conf parse (callBufs calls) (transfer conf pagesize parse true calls) := by
  induction calls using List.reverseRecOn with
  | nil => exact .initial
  | append_singleton calls call ih =>
    rw [transfer_append] at hfailed ⊢
    have hbufs : callBufs (calls ++ [call]) = callBufs calls ++ call.chain := by
      rw [callBufs, List.flatMap_append, List.flatMap_singleton]
      rfl
    rw [hbufs]
    exact (ih (Transfer.failed_of_step hfailed)).step henable hpage call hfailed

/-! ## Whole responses -/

/-- The buffers of a response: the last one, and only it, carries `last_buf`, or `last_in_chain`
alone in a subrequest. -/
def StreamEnds (main : Bool) (bufs : List Buf) : Prop :=
  ∃ pre final, bufs = pre ++ [final] ∧ NoLast pre ∧ final.lastBuf = main ∧
    (main = false → final.lastInChain = true)

/-- What has been passed on is the input as it is, or the result of one parse of all of it. -/
def Exact (parse : Bytes → Bytes) (input : Bytes) (s : Transfer) : Prop :=
  chainData s.passed = input ∧ s.parsed = [] ∨
    chainData s.passed = parse input ∧ s.parsed = [input]

/-- With a limit set, no more than the limit is ever allocated. -/
def WithinLimit (conf : LocConf) (ctx : Ctx) : Prop :=
  0 < conf.maxBodySize →
    ctx.accumulated.length ≤ ctx.capacity ∧ (ctx.capacity : ℤ) ≤ conf.maxBodySize

theorem Bounded.withinLimit {ctx : Ctx} (h : Bounded conf ctx) : WithinLimit conf ctx :=
  fun hpos ↦ ⟨h.fits, h.within hpos⟩

theorem enableMesi_of_headFilter {withConfig : Bool} {r : HeadersOut}
    (h : headFilter conf withConfig r = .collect) : conf.enableMesi = true := by
  by_contra hnot
  rw [headFilter, if_pos hnot] at h
  cases h

/-- Without libgomesi everything is passed on. -/
theorem transfer_of_not_loaded (calls : List FilterCall) :
    (transfer conf pagesize parse false calls).ctx = {} ∧
      (transfer conf pagesize parse false calls).passed = callBufs calls ∧
      (transfer conf pagesize parse false calls).parsed = [] := by
  induction calls using List.reverseRecOn with
  | nil => exact ⟨rfl, rfl, rfl⟩
  | append_singleton calls call ih =>
    obtain ⟨hctx, hpassed, hparsed⟩ := ih
    have hfilter (ctx : Ctx) : bodyFilter conf pagesize parse call.answers false ctx call.chain =
        (ctx, none, .next call.chain) := by
      have hnot : ¬ false = true := by decide
      rw [bodyFilter, if_pos hnot]
      exact ite_self _
    rw [transfer_append, Transfer.step_of_next (hfilter _)]
    refine ⟨hctx, ?_, ?_⟩
    · dsimp only
      rw [hpassed, callBufs, callBufs, List.flatMap_append, List.flatMap_singleton]
    · dsimp only
      rw [hparsed]
      rfl

theorem failed_of_isPrefix {calls calls' : List FilterCall} (h : calls <+: calls')
    (hfailed : (transfer conf pagesize parse goModule calls').failed = false) :
    (transfer conf pagesize parse goModule calls).failed = false := by
  obtain ⟨more, rfl⟩ := h
  induction more using List.reverseRecOn with
  | nil => rwa [List.append_nil] at hfailed
  | append_singleton more call ih =>
    rw [← List.append_assoc, transfer_append] at hfailed
    exact ih (Transfer.failed_of_step hfailed)

/-- In the array of the filter there is never more than the limit. -/
theorem withinLimit_transfer (henable : conf.enableMesi = true) (hpage : 0 < pagesize)
    {calls : List FilterCall}
    (hfailed : (transfer conf pagesize parse goModule calls).failed = false) :
    WithinLimit conf (transfer conf pagesize parse goModule calls).ctx := by
  cases goModule with
  | false =>
    rw [transfer_of_not_loaded calls |>.1]
    exact fun hpos ↦ ⟨le_refl 0, hpos.le⟩
  | true => exact (phase_transfer henable hpage calls hfailed).bounded.withinLimit

/-- The buffer that ends a response is the last one. -/
theorem eq_of_last {pre pre' post : List Buf} {b final : Buf}
    (h : pre ++ [final] = pre' ++ b :: post) (hlast : NoLast pre) (hb : b.lastBuf = true) :
    pre ++ [final] = pre' ++ [b] := by
  induction post using List.reverseRecOn with
  | nil => exact h
  | append_singleton post c _ =>
    rw [← List.cons_append, ← List.append_assoc] at h
    have hpre := (List.append_inj' h rfl).1
    have hmem : b ∈ pre := by
      rw [hpre]
      exact List.mem_append_right _ List.mem_cons_self
    rw [hlast b hmem] at hb
    cases hb

/-- **Main result.** What is passed on is the response or one parse of it, and no more than the
limit is buffered: exactly for main requests, for bodies over the limit, for empty ones and without
libgomesi. -/
theorem transfer_exact_iff {withConfig main : Bool} {r : HeadersOut} {calls : List FilterCall}
    (haccept : headFilter conf withConfig r = .collect) (hpage : 0 < pagesize)
    (hends : StreamEnds main (callBufs calls))
    (hfailed : (transfer conf pagesize parse goModule calls).failed = false) :
    (Exact parse (chainData (callBufs calls)) (transfer conf pagesize parse goModule calls) ∧
        ∀ pre, pre <+: calls → WithinLimit conf (transfer conf pagesize parse goModule pre).ctx) ↔
      main = true ∨ Over conf (chainData (callBufs calls)) ∨ chainData (callBufs calls) = [] ∨
        goModule = false := by
  have henable := enableMesi_of_headFilter haccept
  have hwithin (pre : List FilterCall) (hpre : pre <+: calls) :
      WithinLimit conf (transfer conf pagesize parse goModule pre).ctx :=
    withinLimit_transfer henable hpage (failed_of_isPrefix hpre hfailed)
  rw [and_iff_left hwithin]
  cases goModule with
  | false =>
    have hloaded : (transfer conf pagesize parse false calls).ctx = {} ∧
        (transfer conf pagesize parse false calls).passed = callBufs calls ∧
        (transfer conf pagesize parse false calls).parsed = [] := transfer_of_not_loaded calls
    obtain ⟨-, hpassed, hparsed⟩ := hloaded
    refine iff_of_true (.inl ⟨?_, hparsed⟩) (.inr (.inr (.inr rfl)))
    rw [hpassed]
  | true =>
    have hphase := phase_transfer henable hpage calls hfailed
    obtain ⟨pre, final, hbufs, hlast, hfinal, -⟩ := hends
    have hmem : final ∈ callBufs calls := by
      rw [hbufs]
      exact List.mem_append_right _ List.mem_cons_self
    cases hphase with
    | collecting hctx hnone hpassed hparsed =>
      have hmain : main = false := hfinal.symm.trans (hnone final hmem)
      have hover := hctx.not_over
      constructor
      · rintro (⟨hinput, -⟩ | ⟨-, hinput⟩)
        · exact .inr (.inr (.inl (hinput.symm.trans hpassed)))
        · rw [hparsed] at hinput
          cases hinput
      · rintro (h | h | h | h)
        · rw [hmain] at h
          cases h
        · exact absurd h hover
        · exact .inl ⟨hpassed.trans h.symm, hparsed⟩
        · cases h
    | passing hpass hbounded hover hpassed hparsed =>
      exact iff_of_true (.inl ⟨hpassed, hparsed⟩) (.inr (.inl hover))
    | finished pre' post b hseen hlast' hb hdone hpass hbounded hover hpassed hparsed =>
      have hinput : callBufs calls = pre' ++ [b] := by
        rw [hbufs] at hseen ⊢
        exact eq_of_last hseen hlast hb
      have hmain : main = true := by
        rw [hbufs] at hinput
        have hboth := List.append_inj' hinput rfl
        rw [← hfinal, List.singleton_inj.mp hboth.2]
        exact hb
      rw [hinput]
      exact iff_of_true (.inr ⟨hpassed, hparsed⟩) (.inl hmain)

/-- An HTML response. -/
def htmlHeaders : HeadersOut := { contentType := lit "text/html" }

/-- The calls for a response of two buffers with a flush and a wake-up between them. -/
def twoBufferCalls : List FilterCall :=
  [{ chain := [{ data := lit "ab" }, { flush := true }] }, { chain := [] },
    { chain := [{ data := lit "c", lastBuf := true, lastInChain := true }] }]

/-- A main request of two buffers. -/
theorem transfer_exact_iff_twoBuffers :
    headFilter { enableMesi := true } true htmlHeaders = .collect ∧
      Exact (lit "<" ++ · ++ lit ">") (lit "abc")
        (transfer { enableMesi := true } 4096 (lit "<" ++ · ++ lit ">") true twoBufferCalls) := by
  have haccept : headFilter { enableMesi := true } true htmlHeaders = .collect := by decide +kernel
  have hends : StreamEnds true (callBufs twoBufferCalls) :=
    ⟨[{ data := lit "ab" }, { flush := true }], _, rfl, by decide, rfl, nofun⟩
  exact ⟨haccept,
    ((transfer_exact_iff haccept (by decide) hends (by decide +kernel)).mpr (.inl rfl)).1⟩

/-- The body of a subrequest is not passed on. -/
theorem not_transfer_exact : ¬ ∀ (conf : LocConf) (pagesize : ℕ) (parse : Bytes → Bytes)
    (goModule withConfig main : Bool) (r : HeadersOut) (calls : List FilterCall),
    headFilter conf withConfig r = .collect → 0 < pagesize → StreamEnds main (callBufs calls) →
      (transfer conf pagesize parse goModule calls).failed = false →
        Exact parse (chainData (callBufs calls)) (transfer conf pagesize parse goModule calls) ∧
          ∀ pre, pre <+: calls →
            WithinLimit conf (transfer conf pagesize parse goModule pre).ctx := by
  intro h
  have hexact := (h { enableMesi := true } 4096 id true true false htmlHeaders
    [{ chain := [{ data := lit "x", lastInChain := true }] }] (by decide +kernel) (by decide)
    ⟨[], _, rfl, nofun, rfl, fun _ ↦ rfl⟩ (by decide +kernel)).1
  have hparsed : (transfer { enableMesi := true } 4096 id true
    [{ chain := [{ data := lit "x", lastInChain := true }] }]).passed = [] := by decide +kernel
  rcases hexact with ⟨hpassed, -⟩ | ⟨hpassed, -⟩
  · rw [hparsed] at hpassed
    exact absurd hpassed (by decide)
  · rw [hparsed] at hpassed
    exact absurd hpassed (by decide)

end Nginx

end GoMesi
