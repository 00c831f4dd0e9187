import GoMesi.Middleware.ResponseWriter
import GoMesi.Servers.EdgeControl

/-!
# The Go proxy

The proxy gives the reverse proxy of the standard library a `ResponseWriter` and answers from what
is in it afterwards, unless it has been streamed. So the client sees the status that the writer has
at the end, and not the one the handler set first.
-/

namespace GoMesi

open Strings ResponseWriter

/-! ## The server -/

/-- `Proxy`, as far as a response depends on it. -/
structure Proxy where
  maxBodySize : ℤ := 0
  onOversize : OnOversize := .pass
  parseOnHeader : Bool := false

namespace Proxy

/-- The limit that `ServeHTTP` sets. The `Content-Length` of an answer to `HEAD` has no body behind
it. -/
def limit (p : Proxy) (head : Bool) : ResponseWriter.Limit :=
  if head then {}
  else
    { maxBody := p.maxBodySize
      mode := p.onOversize
      notify := true
      appliesTo := if p.parseOnHeader then some signalsEsi else none }

/-- `writeResponse`. The headers are in the map of `rw` already. -/
def writeResponse (rw : ResponseWriter) : ResponseWriter :=
  { rw with sent := rw.sent ++ [.writeHeader rw.statusCode, .write rw.body] }

/-- `ServeHTTP` from the moment the handler has returned, where `parse` is what `MESIParse` makes of
the body. -/
def respond (p : Proxy) (parse : Bytes → Bytes) (rw : ResponseWriter) : ResponseWriter :=
  if rw.handleOversize.2 then rw.handleOversize.1
  else if ¬ hasPrefix (rw.header.get (lit "Content-Type")) (lit "text/html") then writeResponse rw
  else if p.parseOnHeader ∧ ¬ signalsEsi rw.header then writeResponse rw
  else
    let processed := parse rw.body
    { rw with
      header := (rw.header.insert (lit "Surrogate-Control") [lit "ESI/1.0"]).insert
        (lit "Content-Length") [Strconv.formatInt processed.length]
      sent := rw.sent ++ [.writeHeader rw.statusCode, .write processed] }

end Proxy

/-! ## The status of net/http -/

/-- The status `net/http` sends for a sequence of calls: the first that is not informational, and
200 if a byte of the body or the end of the handler comes before it. -/
def netHttpStatus : List Sent → ℤ
  | [] => 200
  | .writeHeader code :: rest => if informational code then netHttpStatus rest else code
  | .write _ :: _ => 200
  | .flush :: _ => 200

/-- The calls of a handler, made on a writer of `net/http`. -/
def bareCalls (calls : List Call) : List Sent :=
  calls.flatMap fun
    | .header _ => []
    | .writeHeader code => [.writeHeader code]
    | .write b => [.write b]
    | .flush => [.flush]

/-- The calls that come before the response is streamed, or all if it is not. -/
def heldCalls : ResponseWriter → List Call → List Call
  | _, [] => []
  | rw, c :: calls => if rw.committed then [] else c :: heldCalls (rw.step c) calls

/-- The status a call sets for good. -/
def finalStatus : Call → Option ℤ
  | .writeHeader code => if informational code then none else some code
  | _ => none

/-- The last status that some calls set for good. -/
def lastStatus (calls : List Call) : Option ℤ := (calls.filterMap finalStatus).getLast?

/-- A call at which `net/http` decides what the status is. -/
def FixesStatus (c : Call) : Prop := finalStatus c ≠ none ∨ ∃ b, c = .write b

namespace ResponseWriter

theorem statusCode_trigger (rw : ResponseWriter) (size : ℤ) :
    (rw.trigger size).statusCode = rw.statusCode := by
  by_cases h : rw.mode = .pass
  · rw [trigger_of_pass h]
  · rw [trigger_of_ne_pass h]

theorem statusCode_decide_ (rw : ResponseWriter) : rw.decide_.statusCode = rw.statusCode := by
  rw [decide_]
  split_ifs <;> try rfl
  split
  · split_ifs
    · exact statusCode_trigger _ _
    · rfl
  · rfl

theorem committed_trigger {rw : ResponseWriter} (h : rw.committed = true) (size : ℤ) :
    (rw.trigger size).committed = true := by
  by_cases hmode : rw.mode = .pass
  · rw [trigger_of_pass hmode]
  · rw [trigger_of_ne_pass hmode]
    exact h

theorem committed_decide_ {rw : ResponseWriter} (h : rw.committed = true) :
    rw.decide_.committed = true := by
  rw [decide_]
  split_ifs <;> try exact h
  split
  · split_ifs
    · apply committed_trigger
      exact h
    · exact h
  · exact h

/-- A writer that streams goes on streaming, and its status stays as it is. -/
theorem step_of_committed {rw : ResponseWriter} (h : rw.committed = true) (c : Call) :
    (rw.step c).committed = true ∧ (rw.step c).statusCode = rw.statusCode := by
  cases c with
  | header hd => exact ⟨h, rfl⟩
  | writeHeader code =>
    rw [step, writeHeader, if_pos h]
    exact ⟨h, rfl⟩
  | write b =>
    rw [step, write]
    dsimp only
    rw [if_pos (committed_decide_ h)]
    exact ⟨committed_decide_ h, statusCode_decide_ rw⟩
  | flush =>
    rw [step, flush]
    split_ifs <;> exact ⟨h, rfl⟩

theorem statusCode_run_of_committed {rw : ResponseWriter} (h : rw.committed = true)
    (calls : List Call) :
    (rw.run calls).committed = true ∧ (rw.run calls).statusCode = rw.statusCode := by
  induction calls using List.reverseRecOn with
  | nil => exact ⟨h, rfl⟩
  | append_singleton calls c ih =>
    rw [run, List.foldl_append]
    have hstep := step_of_committed ih.1 c
    exact ⟨hstep.1, hstep.2.trans ih.2⟩

/-- The status after a call of a handler whose response is held back. -/
theorem statusCode_step {rw : ResponseWriter} (h : rw.committed = false) (c : Call) :
    (rw.step c).statusCode = (finalStatus c).getD rw.statusCode := by
  have hcommitted : ¬ rw.committed = true := by
    rw [h]
    decide
  cases c with
  | header hd => rfl
  | writeHeader code =>
    rw [step, writeHeader, if_neg hcommitted, finalStatus]
    by_cases hinfo : informational code = true
    · rw [if_pos hinfo, if_pos hinfo]
      rfl
    · rw [if_neg hinfo, if_neg hinfo]
      exact statusCode_decide_ _
  | write b =>
    rw [step, write]
    dsimp only
    split_ifs
    · exact statusCode_decide_ rw
    · exact statusCode_decide_ rw
    · exact (statusCode_trigger _ _).trans (statusCode_decide_ rw)
    · exact (statusCode_trigger _ _).trans (statusCode_decide_ rw)
    · exact statusCode_decide_ rw
  | flush =>
    rw [step, flush]
    split_ifs <;> rfl

/-- Streaming starts with a call at which `net/http` decides what the status is. -/
theorem fixesStatus_of_committed {rw : ResponseWriter} (h : rw.committed = false) {c : Call}
    (hstep : (rw.step c).committed = true) : FixesStatus c := by
  have hfalse {p : Prop} (hc : rw.committed = true) : p := by
    rw [h] at hc
    cases hc
  cases c with
  | header hd => exact hfalse hstep
  | writeHeader code =>
    by_cases hinfo : informational code = true
    · rw [step, writeHeader, if_pos hinfo, ite_self] at hstep
      exact hfalse hstep
    · refine .inl ?_
      rw [finalStatus, if_neg hinfo]
      exact Option.some_ne_none code
  | write b => exact .inr ⟨b, rfl⟩
  | flush =>
    rw [step, flush] at hstep
    split_ifs at hstep
    · exact hfalse hstep
    · exact hfalse hstep

/-- A writer that streams has sent its status first. -/
structure HeadSent (rw : ResponseWriter) : Prop where
  held : rw.committed = false → rw.sent = []
  streamed : rw.committed = true → rw.sent.head? = some (.writeHeader rw.statusCode)

namespace HeadSent

variable {rw : ResponseWriter}

theorem trigger (h : rw.HeadSent) (hcommitted : rw.committed = false) (size : ℤ) :
    (rw.trigger size).HeadSent := by
  have hsent := h.held hcommitted
  by_cases hmode : rw.mode = .pass
  · rw [trigger_of_pass hmode]
    constructor
    · intro hfalse
      cases hfalse
    · intro _
      dsimp only
      rw [hsent]
      rfl
  · rw [trigger_of_ne_pass hmode]
    exact ⟨fun _ ↦ hsent, fun hc ↦ absurd (hcommitted.symm.trans hc) (by decide)⟩

theorem decide_ (h : rw.HeadSent) (hcommitted : rw.committed = false) : rw.decide_.HeadSent := by
  rw [ResponseWriter.decide_]
  split_ifs
  · exact h
  · exact ⟨h.held, h.streamed⟩
  · exact ⟨h.held, h.streamed⟩
  · exact ⟨h.held, h.streamed⟩
  · split
    · split_ifs
      · have hwatched : HeadSent { rw with decided := true, watch := true } := ⟨h.held, h.streamed⟩
        exact hwatched.trigger hcommitted _
      · exact ⟨h.held, h.streamed⟩
    · exact ⟨h.held, h.streamed⟩
  · exact ⟨h.held, h.streamed⟩

/-- What is sent later does not change what has been sent first. -/
theorem append (h : rw.HeadSent) (hcommitted : rw.committed = true) (sent : List Sent) :
    HeadSent { rw with sent := rw.sent ++ sent } := by
  constructor
  · exact fun hfalse ↦ absurd (hcommitted.symm.trans hfalse) (by decide)
  · intro _
    dsimp only
    rw [List.head?_append, h.streamed hcommitted]
    rfl

theorem decide_of_committed (h : rw.HeadSent) (hdecided : rw.committed = true → rw.decided = true) :
    rw.decide_.HeadSent := by
  by_cases hcommitted : rw.committed = true
  · have heq : rw.decide_ = rw := if_pos (hdecided hcommitted)
    rw [heq]
    exact h
  · exact h.decide_ (Bool.eq_false_iff.mpr hcommitted)

theorem step (h : rw.HeadSent) (hdecided : rw.committed = true → rw.decided = true) (c : Call) :
    (rw.step c).HeadSent := by
  cases c with
  | header hd => exact ⟨h.held, h.streamed⟩
  | writeHeader code =>
    rw [ResponseWriter.step, writeHeader]
    split_ifs with hcommitted
    · exact h
    · exact h
    · have hcode : HeadSent { rw with statusCode := code } :=
        ⟨h.held, fun hc ↦ absurd hc hcommitted⟩
      exact hcode.decide_ (Bool.eq_false_iff.mpr hcommitted)
  | write b =>
    have hdecide := h.decide_of_committed hdecided
    rw [ResponseWriter.step, write]
    dsimp only
    split_ifs with hcommitted hoversize hover hcommitted'
    · exact hdecide.append hcommitted _
    · exact hdecide
    · exact (hdecide.trigger (Bool.eq_false_iff.mpr hcommitted) _).append hcommitted' _
    · exact hdecide.trigger (Bool.eq_false_iff.mpr hcommitted) _
    · exact ⟨hdecide.held, hdecide.streamed⟩
  | flush =>
    rw [ResponseWriter.step, flush]
    split_ifs with hflush
    · exact h.append hflush.1 _
    · exact h

end HeadSent

/-- What holds of a writer when its handler returns. -/
theorem headSent_run (l : ResponseWriter.Limit) (flusher : Bool) (header : Header)
    (calls : List Call) :
    ((l.writer flusher header).run calls).HeadSent := by
  induction calls using List.reverseRecOn with
  | nil =>
    rw [run, List.foldl_nil, ResponseWriter.Limit.writer]
    cases l.appliesTo <;> exact ⟨fun _ ↦ rfl, fun h ↦ absurd h Bool.false_ne_true⟩
  | append_singleton calls c ih =>
    rw [run, List.foldl_append]
    refine ih.step (fun hcommitted ↦ ?_) c
    -- a writer that streams has decided to
    have hinv := (inv_writer l flusher header).run calls
    by_contra hnot
    have hoversize := (hinv.committed_iff (hinv.committed_mode hcommitted)).mp hcommitted
    rw [(hinv.not_decided (Bool.eq_false_iff.mpr hnot)).2] at hoversize
    cases hoversize

end ResponseWriter

/-! ## The status of the proxy -/

theorem lastStatus_cons (c : Call) (calls : List Call) (code : ℤ) :
    (lastStatus (c :: calls)).getD code = (lastStatus calls).getD ((finalStatus c).getD code) := by
  rw [lastStatus, List.filterMap_cons]
  cases hc : finalStatus c with
  | none => rfl
  | some code' =>
    simp only [List.getLast?_cons, Option.getD_some]
    rfl

/-- The status of a writer is the last that has been set while the response is held back. -/
theorem statusCode_run (rw : ResponseWriter) (calls : List Call) :
    (rw.run calls).statusCode = (lastStatus (heldCalls rw calls)).getD rw.statusCode := by
  induction calls generalizing rw with
  | nil => rfl
  | cons c calls ih =>
    rw [heldCalls]
    by_cases hcommitted : rw.committed = true
    · rw [if_pos hcommitted]
      exact (statusCode_run_of_committed hcommitted _).2
    · rw [if_neg hcommitted, lastStatus_cons, ← statusCode_step (Bool.eq_false_iff.mpr hcommitted)]
      exact ih (rw.step c)

/-- Without a status that is set for good while the response is held back, `net/http` sends 200. -/
theorem netHttpStatus_of_lastStatus {rw : ResponseWriter} {calls : List Call}
    (hcommitted : rw.committed = false) (hflush : .flush ∉ calls)
    (hnone : ∀ c ∈ heldCalls rw calls, finalStatus c = none) :
    netHttpStatus (bareCalls calls) = 200 := by
  induction calls generalizing rw with
  | nil => rfl
  | cons c calls ih =>
    have hc : ¬ rw.committed = true := by
      rw [hcommitted]
      decide
    rw [heldCalls, if_neg hc] at hnone
    have hnot := hnone c List.mem_cons_self
    have hrest (hstep : (rw.step c).committed = false) : netHttpStatus (bareCalls calls) = 200 :=
      ih hstep (fun hmem ↦ hflush (List.mem_cons_of_mem _ hmem))
        fun c' hc' ↦ hnone c' (List.mem_cons_of_mem _ hc')
    -- a call at which streaming starts would fix the status
    have hstep (hwrite : ∀ b, c ≠ .write b) : (rw.step c).committed = false := by
      rw [Bool.eq_false_iff]
      intro hstep
      rcases fixesStatus_of_committed hcommitted hstep with h | ⟨b, heq⟩
      · exact h hnot
      · exact hwrite b heq
    cases c with
    | header h => exact hrest (hstep (by rintro b ⟨⟩))
    | writeHeader code =>
      have hinfo : informational code = true := by
        by_contra hinfo
        rw [finalStatus, if_neg hinfo] at hnot
        cases hnot
      have hbare : netHttpStatus (bareCalls (.writeHeader code :: calls)) =
          netHttpStatus (bareCalls calls) := if_pos hinfo
      rw [hbare]
      exact hrest (hstep (by rintro b ⟨⟩))
    | write b => rfl
    | flush => exact absurd List.mem_cons_self hflush

theorem committed_writer (l : ResponseWriter.Limit) (flusher : Bool) (header : Header) :
    (l.writer flusher header).committed = false ∧ (l.writer flusher header).statusCode = 200 := by
  rw [ResponseWriter.Limit.writer]
  cases l.appliesTo <;> exact ⟨rfl, rfl⟩

/-- A status that was set for good is one the client can be told. -/
theorem informational_of_lastStatus {calls : List Call} {code : ℤ}
    (h : lastStatus calls = some code) : informational code = false := by
  obtain ⟨c, -, hc⟩ := List.mem_filterMap.mp (List.mem_of_getLast? h)
  cases c with
  | writeHeader code' =>
    rw [finalStatus] at hc
    split_ifs at hc with hinfo
    obtain rfl := Option.some.inj hc
    exact Bool.eq_false_iff.mpr hinfo
  | _ => cases hc

theorem informational_statusCode (l : ResponseWriter.Limit) (flusher : Bool) (header : Header)
    (calls : List Call) :
    informational ((l.writer flusher header).run calls).statusCode = false := by
  rw [statusCode_run, (committed_writer l flusher header).2]
  cases hlast : lastStatus (heldCalls (l.writer flusher header) calls) with
  | none => rfl
  | some code => exact informational_of_lastStatus hlast

/-- The client is told the status of the writer. -/
theorem netHttpStatus_respond (p : Proxy) (parse : Bytes → Bytes) (l : ResponseWriter.Limit)
    (flusher : Bool)
    (header : Header) (calls : List Call)
    (hdelivered : ((l.writer flusher header).run calls).oversize = true → l.mode = .pass) :
    netHttpStatus (p.respond parse ((l.writer flusher header).run calls)).sent =
      ((l.writer flusher header).run calls).statusCode := by
  have hhead := headSent_run l flusher header calls
  have hinfo := informational_statusCode l flusher header calls
  have hinv := (inv_writer l flusher header).run calls
  have hmode := (limit_run_writer l flusher header calls).1
  generalize (l.writer flusher header).run calls = rw' at *
  have hfinal (rest : List Sent) :
      netHttpStatus (.writeHeader rw'.statusCode :: rest) = rw'.statusCode := by
    rw [netHttpStatus, hinfo]
    rfl
  by_cases hoversize : rw'.oversize = true
  · have hpass : rw'.mode = .pass := hmode.trans (hdelivered hoversize)
    have hsent := hhead.streamed ((hinv.committed_iff hpass).mpr hoversize)
    have hhandle : rw'.handleOversize = (rw', true) := by
      rw [handleOversize, if_neg (not_not.mpr hoversize), if_neg]
      rw [hpass]
      decide
    rw [Proxy.respond, hhandle, if_pos rfl]
    obtain ⟨rest, hrest⟩ : ∃ rest, rw'.sent = .writeHeader rw'.statusCode :: rest := by
      cases hs : rw'.sent with
      | nil => rw [hs] at hsent; cases hsent
      | cons x rest =>
        rw [hs] at hsent
        exact ⟨rest, by rw [Option.some.inj hsent]⟩
    rw [hrest]
    exact hfinal rest
  · have hcommitted : rw'.committed = false := by
      rw [Bool.eq_false_iff]
      exact fun hc ↦ hoversize ((hinv.committed_iff (hinv.committed_mode hc)).mp hc)
    have hsent := hhead.held hcommitted
    have hhandle : rw'.handleOversize = (rw', false) := by
      rw [handleOversize, if_pos hoversize]
    rw [Proxy.respond, hhandle]
    simp only [Bool.false_eq_true, if_false]
    split_ifs <;> simp only [Proxy.writeResponse, hsent, List.nil_append] <;> exact hfinal _

/-- **Main result.** The status the client gets is the one `net/http` would have sent exactly if the
last status the handler sets for good, while its response is held back, is that one. -/
theorem status_iff (p : Proxy) (parse : Bytes → Bytes) (l : ResponseWriter.Limit) (flusher : Bool)
    (header : Header) (calls : List Call) (hflush : .flush ∉ calls)
    (hdelivered : ((l.writer flusher header).run calls).oversize = true → l.mode = .pass) :
    netHttpStatus (p.respond parse ((l.writer flusher header).run calls)).sent =
        netHttpStatus (bareCalls calls) ↔
      ∀ code ∈ lastStatus (heldCalls (l.writer flusher header) calls),
        code = netHttpStatus (bareCalls calls) := by
  rw [netHttpStatus_respond p parse l flusher header calls hdelivered, statusCode_run]
  obtain ⟨hcommitted, hstatus⟩ := committed_writer l flusher header
  cases hlast : lastStatus (heldCalls (l.writer flusher header) calls) with
  | none =>
    rw [lastStatus, List.getLast?_eq_none_iff, List.filterMap_eq_nil_iff] at hlast
    refine iff_of_true ?_ nofun
    rw [netHttpStatus_of_lastStatus hcommitted hflush hlast]
    exact hstatus
  | some code =>
    constructor
    · rintro h code' hcode'
      rw [← Option.some.inj hcode']
      exact h
    · intro h
      exact h code rfl

/-- A handler that answers 200 only. -/
theorem status_iff_once :
    netHttpStatus (({} : Proxy).respond id
        ((({} : ResponseWriter.Limit).writer true ∅).run [.writeHeader 200, .write (lit "ok")])).sent =
      netHttpStatus (bareCalls [.writeHeader 200, .write (lit "ok")]) ∧
    (({} : ResponseWriter.Limit).writer true ∅).statusCode = 200 :=
  ⟨(status_iff {} id {} true ∅ [.writeHeader 200, .write (lit "ok")] (by simp) (fun _ ↦ rfl)).mpr
    (by decide), rfl⟩

/-- A handler that reports an error after it has written is heard, where `net/http` would have sent
200. -/
theorem not_status : ¬ ∀ (p : Proxy) (parse : Bytes → Bytes) (l : ResponseWriter.Limit)
    (flusher : Bool)
    (header : Header) (calls : List Call), .flush ∉ calls →
      (((l.writer flusher header).run calls).oversize = true → l.mode = .pass) →
        netHttpStatus (p.respond parse ((l.writer flusher header).run calls)).sent =
          netHttpStatus (bareCalls calls) := by
  intro h
  have hsame := h {} id {} true ∅ [.write (lit "ok"), .writeHeader 500] (by simp) fun _ ↦ rfl
  exact absurd hsame (by decide)

end GoMesi
