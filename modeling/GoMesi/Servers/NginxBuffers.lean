import GoMesi.Servers.CBodies

/-!
# The buffers nginx is handed

nginx's write filter takes a buffer without bytes only if it is a mark: `flush`, `sync` or `last_buf`
is set, and the buffer is neither in memory nor in a file. Any other empty buffer is reported as an
error and ends the connection. The body filter passes on buffers it has been handed, what it has
collected, and the parsed body. The buffer of the parsed body is in memory and marked as the last one,
whatever its length is, so that it is legal if and only if the parsed body is not empty.
-/

namespace GoMesi.Nginx

open Strings

/-! ## Legal buffers -/

/-- `ngx_buf_in_memory` -/
def Buf.inMemory (b : Buf) : Bool := b.temporary || b.memory || b.mmap

/-- `ngx_buf_special` -/
def Buf.special (b : Buf) : Bool := (b.flush || b.lastBuf || b.sync) && !b.inMemory && !b.inFile

/-- The write filter takes the buffer. -/
def Buf.Sendable (b : Buf) : Prop := b.data ≠ [] ∨ b.special = true

theorem sendable_lastBuffer_iff (parsed : Bytes) : (lastBuffer parsed).Sendable ↔ parsed ≠ [] := by
  have hspecial : (lastBuffer parsed).special = false := rfl
  rw [Buf.Sendable, hspecial]
  exact or_iff_left (by decide)

variable {conf : LocConf} {pagesize : ℕ} {parse : Bytes → Bytes} {goModule : Bool}

/-! ## One call -/

/-- What a call passes on: legal buffers, or the buffer of the body it has parsed. -/
inductive Hands (parse : Bytes → Bytes) : Option Bytes → Outcome → Prop
  | next {chain : List Buf} (h : ∀ b ∈ chain, b.Sendable) : Hands parse none (.next chain)
  | parsed (body : Bytes) : Hands parse (some body) (.next [lastBuffer (parse body)])
  | return_ {parsed : Option Bytes} (code : Code) : Hands parse parsed (.return_ code)

theorem sendable_collect {ans : Answers} {ctx ctx' : Ctx} {buf : Buf} {rest chain : List Buf}
    (h : ∀ b ∈ buf :: rest, b.Sendable)
    (hcollect : collect conf pagesize ans ctx buf rest = (ctx', some (.next chain))) :
    ∀ b ∈ chain, b.Sendable := by
  rw [collect] at hcollect
  dsimp only at hcollect
  split_ifs at hcollect with hsize hover herror hhead halloc hgrow halloc
  all_goals cases hcollect
  · -- What has been collected goes first, and it is not empty.
    intro b hb
    rcases List.mem_cons.mp hb with rfl | hb
    · exact .inl (List.ne_nil_of_length_pos hhead)
    · exact h b hb
  · exact h

theorem hands_bufferLoop {ans : Answers} {chain : List Buf} (h : ∀ b ∈ chain, b.Sendable)
    (ctx : Ctx) :
    Hands parse (bufferLoop conf pagesize parse ans ctx chain).2.1
      (bufferLoop conf pagesize parse ans ctx chain).2.2 := by
  induction chain generalizing ctx with
  | nil => exact .return_ .ok
  | cons buf rest ih =>
    rw [bufferLoop]
    generalize hcollect : collect conf pagesize ans ctx buf rest = collected
    obtain ⟨ctx', outcome⟩ := collected
    cases outcome with
    | some outcome =>
      cases outcome with
      | next passed => exact .next (sendable_collect h hcollect)
      | return_ code => exact .return_ code
    | none =>
      dsimp only
      split_ifs
      · exact .parsed _
      · exact .return_ .error
      · exact ih (fun b hb ↦ h b (List.mem_cons_of_mem _ hb)) ctx'

theorem hands_bodyFilter {ans : Answers} {chain : List Buf} (h : ∀ b ∈ chain, b.Sendable)
    (ctx : Ctx) :
    Hands parse (bodyFilter conf pagesize parse ans goModule ctx chain).2.1
      (bodyFilter conf pagesize parse ans goModule ctx chain).2.2 := by
  rw [bodyFilter]
  by_cases henable : ¬ conf.enableMesi = true
  · rw [if_pos henable]
    exact .next h
  by_cases hmodule : ¬ goModule = true
  · rw [if_neg henable, if_pos hmodule]
    exact .next h
  by_cases hpass : ctx.passthrough = true
  · rw [if_neg henable, if_neg hmodule, if_pos hpass]
    exact .next h
  rw [if_neg henable, if_neg hmodule, if_neg hpass]
  cases chain with
  | nil => exact .next h
  | cons buf rest =>
    have hloop : Hands parse (bufferLoop conf pagesize parse ans ctx (buf :: rest)).2.1
        (bufferLoop conf pagesize parse ans ctx (buf :: rest)).2.2 := hands_bufferLoop h ctx
    generalize bufferLoop conf pagesize parse ans ctx (buf :: rest) = reply at *
    obtain ⟨ctx', parsed, outcome⟩ := reply
    cases outcome with
    | next passed => exact hloop
    | return_ code =>
      cases code with
      | ok =>
        dsimp only
        rw [if_neg (List.cons_ne_nil _ _)]
        exact hloop
      | again => exact hloop
      | error => exact hloop

/-- The buffers a call passes on. -/
def Outcome.handed : Outcome → List Buf
  | .next chain => chain
  | .return_ _ => []

theorem Transfer.passed_step (s : Transfer) (call : FilterCall) :
    (s.step conf pagesize parse goModule call).passed =
      s.passed ++
        (bodyFilter conf pagesize parse call.answers goModule s.ctx call.chain).2.2.handed := by
  rw [Transfer.step]
  generalize bodyFilter conf pagesize parse call.answers goModule s.ctx call.chain = reply
  obtain ⟨ctx, parsed, outcome⟩ := reply
  cases outcome with
  | next chain => rfl
  | return_ code => rfl

/-! ## The end of a response -/

/-- No allocation fails. -/
structure Answers.Allocate (ans : Answers) : Prop where
  grow : ∀ rest, ans.grow rest = true
  head : ans.head = true
  out : ans.out = true

/-- A buffer that does not bring the body over the limit is collected. -/
theorem collect_of_not_over (hpage : 0 < pagesize) {ans : Answers} (halloc : ans.Allocate)
    {data : Bytes} {ctx : Ctx} (h : Collecting conf data ctx) {buf : Buf} (rest : List Buf)
    (hover : ¬ Over conf (data ++ buf.data)) :
    ∃ ctx', collect conf pagesize ans ctx buf rest = (ctx', none) ∧
      Collecting conf (data ++ buf.data) ctx' := by
  rcases collect_spec hpage ans h buf rest with
    hcollect | ⟨ctx', hfailed⟩ | ⟨ctx', chain, -, -, -, hcrossed, -⟩
  · exact hcollect
  · have hwithin : ¬ (0 < conf.maxBodySize ∧
        conf.maxBodySize < ((ctx.accumulated.length + buf.data.length : ℕ) : ℤ)) := by
      rw [h.accumulated, ← List.length_append]
      exact hover
    rw [collect] at hfailed
    dsimp only at hfailed
    -- Only the allocation of a larger array could fail.
    rw [if_neg hwithin, if_neg (not_not.mpr (halloc.grow rest))] at hfailed
    split_ifs at hfailed
    all_goals cases hfailed
  · exact absurd hcrossed hover

theorem Over.of_append {data more : Bytes} (h : ¬ Over conf (data ++ more)) : ¬ Over conf data :=
  fun hdata ↦ h (hdata.append more)

/-- The buffer that ends a response within the limit has the body parsed and passed on. -/
theorem bufferLoop_of_last (hpage : 0 < pagesize) {ans : Answers} (halloc : ans.Allocate)
    {data : Bytes} {ctx : Ctx} (h : Collecting conf data ctx) {pre : List Buf} {b : Buf}
    (post : List Buf) (hlast : NoLast pre) (hb : b.lastBuf = true)
    (hover : ¬ Over conf (data ++ chainData (pre ++ [b]))) :
    (bufferLoop conf pagesize parse ans ctx (pre ++ b :: post)).2.2 =
      .next [lastBuffer (parse (data ++ chainData (pre ++ [b])))] := by
  induction pre generalizing data ctx with
  | nil =>
    have hdata : data ++ chainData ([] ++ [b]) = data ++ b.data := by
      rw [List.nil_append, chainData_cons, chainData, List.flatMap_nil, List.append_nil]
    rw [hdata] at hover ⊢
    obtain ⟨ctx', hcollect, h'⟩ := collect_of_not_over hpage halloc h post hover
    have hdone : ¬ ctx'.done = true := by
      rw [h'.done]
      decide
    rw [List.nil_append, bufferLoop, hcollect]
    dsimp only
    rw [if_pos ⟨hb, hdone⟩, if_neg (not_not.mpr halloc.out), h'.accumulated]
  | cons buf pre ih =>
    have hdata : data ++ chainData (buf :: pre ++ [b]) =
        data ++ buf.data ++ chainData (pre ++ [b]) := by
      rw [List.cons_append, chainData_cons, List.append_assoc]
    rw [hdata] at hover ⊢
    obtain ⟨ctx', hcollect, h'⟩ :=
      collect_of_not_over hpage halloc h (pre ++ b :: post) (Over.of_append hover)
    have hbuf : ¬ (buf.lastBuf = true ∧ ¬ ctx'.done = true) := by
      rw [hlast buf List.mem_cons_self]
      exact fun hc ↦ absurd hc.1 (by decide)
    rw [List.cons_append, bufferLoop, hcollect]
    dsimp only
    rw [if_neg hbuf]
    exact ih h' (fun b' hb' ↦ hlast b' (List.mem_cons_of_mem _ hb')) hover

/-! ## Whole responses -/

/-- If the response ends within the limit, its body does not come out of `parse` empty. -/
def ParsesToSome (conf : LocConf) (parse : Bytes → Bytes) (bufs : List Buf) : Prop :=
  ∀ pre b post, bufs = pre ++ b :: post → NoLast pre → b.lastBuf = true →
    ¬ Over conf (chainData (pre ++ [b])) → parse (chainData (pre ++ [b])) ≠ []

theorem ParsesToSome.of_append {bufs more : List Buf} (h : ParsesToSome conf parse (bufs ++ more)) :
    ParsesToSome conf parse bufs := by
  intro pre b post hbufs
  refine h pre b (post ++ more) ?_
  rw [hbufs, List.append_assoc]
  rfl

theorem callBufs_append (calls : List FilterCall) (call : FilterCall) :
    callBufs (calls ++ [call]) = callBufs calls ++ call.chain := by
  rw [callBufs, List.flatMap_append, List.flatMap_singleton]
  rfl

theorem NoLast.append {bufs bufs' : List Buf} (h : NoLast bufs) (h' : NoLast bufs') :
    NoLast (bufs ++ bufs') := by
  intro b hb
  rcases List.mem_append.mp hb with hb | hb
  · exact h b hb
  · exact h' b hb

section

variable (henable : conf.enableMesi = true)

include henable

/-- Until the limit is crossed the loop decides which body is parsed. -/
theorem parsed_bodyFilter {ans : Answers} {ctx : Ctx} (hpass : ctx.passthrough = false)
    (chain : List Buf) :
    (bodyFilter conf pagesize parse ans true ctx chain).2.1 =
      (bufferLoop conf pagesize parse ans ctx chain).2.1 := by
  generalize hreply : bufferLoop conf pagesize parse ans ctx chain = reply
  obtain ⟨ctx', parsed, outcome⟩ := reply
  by_cases hok : outcome = .return_ .ok
  · subst hok
    have hnot : ¬ ctx.passthrough = true := by
      rw [hpass]
      decide
    rw [bodyFilter, if_neg (not_not.mpr henable), if_neg (by decide), if_neg hnot, hreply]
    dsimp only
    split_ifs <;> rfl
  · rw [bodyFilter_of_loop henable hpass hreply hok]

/-- One call after calls that have not failed. -/
theorem sendable_handed (hpage : 0 < pagesize) {seen : List Buf} {s : Transfer}
    (hphase : Phase conf parse seen s) {call : FilterCall} (hlegal : ∀ b ∈ call.chain, b.Sendable)
    (hsome : ParsesToSome conf parse (seen ++ call.chain)) :
    ∀ b ∈ (bodyFilter conf pagesize parse call.answers true s.ctx call.chain).2.2.handed,
      b.Sendable := by
  have hhands :
      Hands parse (bodyFilter conf pagesize parse call.answers true s.ctx call.chain).2.1
        (bodyFilter conf pagesize parse call.answers true s.ctx call.chain).2.2 :=
    hands_bodyFilter hlegal s.ctx
  have hparsed (hpass : s.ctx.passthrough = false) :
      (bodyFilter conf pagesize parse call.answers true s.ctx call.chain).2.1 =
        (bufferLoop conf pagesize parse call.answers s.ctx call.chain).2.1 :=
    parsed_bodyFilter henable hpass call.chain
  generalize hreply : bodyFilter conf pagesize parse call.answers true s.ctx call.chain = reply at *
  obtain ⟨ctx, parsed, outcome⟩ := reply
  cases hhands with
  | next h => exact h
  | return_ code => exact nofun
  | parsed body =>
    intro b hb
    rw [List.mem_singleton.mp hb, sendable_lastBuffer_iff]
    cases hphase with
    | collecting hctx hlast _ _ =>
      have hlooped : Looped conf parse (chainData seen) call.chain
          (bufferLoop conf pagesize parse call.answers s.ctx call.chain) :=
        looped_bufferLoop hpage hctx call.chain
      have hbody := hparsed hctx.passthrough
      generalize hloop : bufferLoop conf pagesize parse call.answers s.ctx call.chain = looped at *
      cases hlooped with
      | collected _ _ => cases hbody
      | passing _ _ _ _ => cases hbody
      | @finished ctx' pre post final out hchain hlast' hfinal _ _ _ hover _ =>
        rw [Option.some_inj.mp hbody]
        have hpre : chainData seen ++ chainData (pre ++ [final]) =
            chainData (seen ++ pre ++ [final]) := by
          rw [List.append_assoc, chainData_append seen]
        rw [hpre] at hover ⊢
        refine hsome (seen ++ pre) final post ?_ (hlast.append hlast') hfinal hover
        rw [hchain, List.append_assoc]
      | failed =>
        rw [bodyFilter_of_loop henable hctx.passthrough hloop (by rintro ⟨⟩)] at hreply
        cases hreply
    | passing hpass _ _ _ _ =>
      rw [bodyFilter, if_neg (not_not.mpr henable), if_neg (by decide), if_pos hpass] at hreply
      cases hreply
    | finished pre post final _ _ _ hdone hpass _ _ _ _ =>
      have hbody := hparsed hpass
      rw [bufferLoop_of_done hdone] at hbody
      cases hbody

theorem sendable_transfer (hpage : 0 < pagesize) {calls : List FilterCall}
    (hlegal : ∀ b ∈ callBufs calls, b.Sendable)
    (hgoes : (transfer conf pagesize parse true calls.dropLast).failed = false)
    (hsome : ParsesToSome conf parse (callBufs calls)) :
    ∀ b ∈ (transfer conf pagesize parse true calls).passed, b.Sendable := by
  induction calls using List.reverseRecOn with
  | nil => exact nofun
  | append_singleton calls call ih =>
    rw [callBufs_append] at hlegal hsome
    rw [List.dropLast_concat] at hgoes
    have hbefore := ih (fun b hb ↦ hlegal b (List.mem_append_left _ hb))
      (failed_of_isPrefix (List.dropLast_prefix calls) hgoes) hsome.of_append
    have hphase := phase_transfer henable hpage calls hgoes
    have hnow := sendable_handed henable hpage hphase
      (fun b hb ↦ hlegal b (List.mem_append_right _ hb)) hsome
    intro b hb
    rw [transfer_append, Transfer.passed_step] at hb
    rcases List.mem_append.mp hb with hb | hb
    · exact hbefore b hb
    · exact hnow b hb

/-- The call that brings the end of a response within the limit. -/
theorem handed_of_last (hpage : 0 < pagesize) {seen : List Buf} {s : Transfer}
    (hphase : Phase conf parse seen s) {call : FilterCall} (halloc : call.answers.Allocate)
    {pre post : List Buf} {b : Buf} (hchain : call.chain = pre ++ b :: post)
    (hlast : NoLast (seen ++ pre)) (hb : b.lastBuf = true)
    (hover : ¬ Over conf (chainData (seen ++ pre ++ [b]))) :
    (bodyFilter conf pagesize parse call.answers true s.ctx call.chain).2.2.handed =
      [lastBuffer (parse (chainData (seen ++ pre ++ [b])))] := by
  have hseen : NoLast seen := fun b' hb' ↦ hlast b' (List.mem_append_left _ hb')
  have hpre : NoLast pre := fun b' hb' ↦ hlast b' (List.mem_append_right _ hb')
  rw [List.append_assoc, chainData_append seen] at hover ⊢
  cases hphase with
  | collecting hctx _ _ _ =>
    have hloop : (bufferLoop conf pagesize parse call.answers s.ctx call.chain).2.2 =
        .next [lastBuffer (parse (chainData seen ++ chainData (pre ++ [b])))] := by
      rw [hchain]
      exact bufferLoop_of_last hpage halloc hctx post hpre hb hover
    generalize hreply : bufferLoop conf pagesize parse call.answers s.ctx call.chain = reply at *
    obtain ⟨ctx, parsed, outcome⟩ := reply
    cases hloop
    rw [bodyFilter_of_loop henable hctx.passthrough hreply (by rintro ⟨⟩)]
    rfl
  | passing _ _ hcrossed _ _ => exact absurd (hcrossed.append _) hover
  | finished pre' post' final hseen' _ hfinal _ _ _ _ _ _ =>
    have hmem : final ∈ seen := by
      rw [hseen']
      exact List.mem_append_right _ List.mem_cons_self
    rw [hseen final hmem] at hfinal
    cases hfinal

/-- The body that ends within the limit is passed on in a buffer of its own. -/
theorem lastBuffer_mem_passed (hpage : 0 < pagesize) {calls : List FilterCall}
    (halloc : ∀ call ∈ calls, call.answers.Allocate)
    (hgoes : (transfer conf pagesize parse true calls.dropLast).failed = false)
    {pre post : List Buf} {b : Buf} (hbufs : callBufs calls = pre ++ b :: post)
    (hlast : NoLast pre) (hb : b.lastBuf = true) (hover : ¬ Over conf (chainData (pre ++ [b]))) :
    lastBuffer (parse (chainData (pre ++ [b]))) ∈
      (transfer conf pagesize parse true calls).passed := by
  induction calls using List.reverseRecOn generalizing post with
  | nil => exact absurd hbufs (by simp [callBufs])
  | append_singleton calls call ih =>
    rw [callBufs_append] at hbufs
    rw [List.dropLast_concat] at hgoes
    rw [transfer_append, Transfer.passed_step, List.mem_append]
    have hnow {pre' post' : List Buf} (hpre : pre = callBufs calls ++ pre')
        (hchain : call.chain = pre' ++ b :: post') :
        lastBuffer (parse (chainData (pre ++ [b]))) ∈
          (bodyFilter conf pagesize parse call.answers true
            (transfer conf pagesize parse true calls).ctx call.chain).2.2.handed := by
      rw [hpre] at hlast hover ⊢
      rw [handed_of_last henable hpage (phase_transfer henable hpage calls hgoes)
        (halloc call (List.mem_append_right _ List.mem_cons_self)) hchain hlast hb hover]
      exact List.mem_singleton_self _
    rcases List.append_eq_append_iff.mp hbufs with ⟨pre', hpre, hchain⟩ | ⟨post', hcalls, hchain⟩
    · exact .inr (hnow hpre hchain)
    · cases post' with
      | nil =>
        rw [List.append_nil] at hcalls
        have hpre : pre = callBufs calls ++ [] := by
          rw [hcalls, List.append_nil]
        exact .inr (hnow hpre hchain.symm)
      | cons b' post' =>
        obtain ⟨rfl, -⟩ := List.cons.inj hchain
        refine .inl (ih (fun c hc ↦ halloc c (List.mem_append_left _ hc)) ?_ hcalls)
        exact failed_of_isPrefix (List.dropLast_prefix calls) hgoes

end

/-- What the body filter passes on for a response. A response that is not collected has no context,
and is passed on as it is. -/
def passedOn (conf : LocConf) (pagesize : ℕ) (parse : Bytes → Bytes) (goModule withConfig : Bool)
    (r : HeadersOut) (calls : List FilterCall) : List Buf :=
  if headFilter conf withConfig r = .collect then
    (transfer conf pagesize parse goModule calls).passed
  else callBufs calls

/-- The response is not for the module, or its parsed body is not empty. -/
def OutputNonempty (conf : LocConf) (parse : Bytes → Bytes) (goModule withConfig : Bool)
    (r : HeadersOut) (bufs : List Buf) : Prop :=
  headFilter conf withConfig r = .collect → goModule = true → ParsesToSome conf parse bufs

theorem parse_ne_nil_iff (lcf : Location) (baseURL : Bytes) (cacheKeyFunc : Bytes → Bytes)
    (render : Bytes → EsiParserConfig → Bytes) (input : Bytes) :
    Nginx.parse lcf baseURL cacheKeyFunc render input ≠ [] ↔
      ∃ cfg ∈ callParse lcf baseURL cacheKeyFunc,
        Apache.cString (render (Apache.cString input) cfg) ≠ [] := by
  obtain ⟨config, hconfig⟩ :=
    Option.isSome_iff_exists.mp (Nginx.isSome_callParse lcf baseURL cacheKeyFunc)
  rw [Nginx.parse, hconfig]
  constructor
  · intro h
    exact ⟨config, rfl, h⟩
  · rintro ⟨cfg, hcfg, h⟩
    rw [Option.some_inj.mp hcfg]
    exact h

/-- **Main result.** nginx is handed legal buffers if the parsed body is not empty, and, when no
allocation fails, only then. An error ends a response, so that no call but the last has failed. -/
theorem sendable_passedOn_iff (conf : LocConf) (pagesize : ℕ) (parse : Bytes → Bytes)
    (goModule withConfig : Bool) (r : HeadersOut) {calls : List FilterCall} (hpage : 0 < pagesize)
    (hlegal : ∀ b ∈ callBufs calls, b.Sendable)
    (hgoes : (transfer conf pagesize parse goModule calls.dropLast).failed = false) :
    (OutputNonempty conf parse goModule withConfig r (callBufs calls) →
        ∀ b ∈ passedOn conf pagesize parse goModule withConfig r calls, b.Sendable) ∧
      ((∀ call ∈ calls, call.answers.Allocate) →
        (∀ b ∈ passedOn conf pagesize parse goModule withConfig r calls, b.Sendable) →
          OutputNonempty conf parse goModule withConfig r (callBufs calls)) := by
  rw [passedOn, OutputNonempty]
  by_cases haccept : headFilter conf withConfig r = .collect
  swap
  · rw [if_neg haccept]
    exact ⟨fun _ ↦ hlegal, fun _ _ h ↦ absurd h haccept⟩
  rw [if_pos haccept]
  have henable := enableMesi_of_headFilter haccept
  cases goModule with
  | false =>
    rw [(transfer_of_not_loaded calls).2.1]
    exact ⟨fun _ ↦ hlegal, fun _ _ _ h ↦ absurd h (by decide)⟩
  | true =>
    constructor
    · intro hsome
      exact sendable_transfer henable hpage hlegal hgoes (hsome haccept rfl)
    · intro halloc hsendable _ _ pre b post hbufs hlast hb hover
      rw [← sendable_lastBuffer_iff]
      exact hsendable _ (lastBuffer_mem_passed henable hpage halloc hgoes hbufs hlast hb hover)

/-- A page in one buffer. -/
def onePage (page : Bytes) : List FilterCall :=
  [{ chain := [{ data := page, memory := true, lastBuf := true }] }]

theorem sendable_callBufs_onePage {page : Bytes} (h : page ≠ []) :
    ∀ b ∈ callBufs (onePage page), b.Sendable := by
  intro b hb
  rw [List.mem_singleton.mp hb]
  exact .inl h

/-- A page that comes out as it is. -/
theorem sendable_passedOn_iff_onePage :
    ¬ ∃ b ∈ passedOn { enableMesi := true } 4096 (lit "<" ++ ·) true true htmlHeaders
      (onePage (lit "a")), ¬ b.Sendable := by
  rintro ⟨b, hb, hnot⟩
  have hlegal : ∀ b ∈ callBufs (onePage (lit "a")), b.Sendable :=
    sendable_callBufs_onePage (by decide)
  have hsendable := (sendable_passedOn_iff { enableMesi := true } 4096 (lit "<" ++ ·) true true
    htmlHeaders (by decide) hlegal rfl).1
  exact hnot (hsendable (fun _ _ _ _ _ _ _ _ _ ↦ List.cons_ne_nil _ _) b hb)

/-- A page that renders to nothing is sent as an empty buffer in memory. -/
theorem not_sendable_passedOn : ¬ ∀ (conf : LocConf) (pagesize : ℕ) (parse : Bytes → Bytes)
    (goModule withConfig : Bool) (r : HeadersOut) (calls : List FilterCall), 0 < pagesize →
      (∀ b ∈ callBufs calls, b.Sendable) →
      (transfer conf pagesize parse goModule calls.dropLast).failed = false →
        ∀ b ∈ passedOn conf pagesize parse goModule withConfig r calls, b.Sendable := by
  intro h
  have hsendable := h { enableMesi := true } 4096 (Nginx.parse plainLocation [] id fun _ _ ↦ []) true
    true htmlHeaders (onePage (lit "<esi:remove>a</esi:remove>")) (by decide)
    (sendable_callBufs_onePage (by decide)) rfl
  have hmem : lastBuffer [] ∈ passedOn { enableMesi := true } 4096
      (Nginx.parse plainLocation [] id fun _ _ ↦ []) true true htmlHeaders
      (onePage (lit "<esi:remove>a</esi:remove>")) := by decide +kernel
  exact (sendable_lastBuffer_iff []).mp (hsendable _ hmem) rfl

end GoMesi.Nginx
