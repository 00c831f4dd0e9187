import GoMesi.Go.Strconv
import GoMesi.Mesi.Config

/-!
# The response writer

The Go integrations let a handler write its response into a `ResponseWriter`, which keeps the body
back until it can be parsed. If a limit is set, an HTML body that crosses it is not kept any longer:
it is streamed to the client (pass) or dropped (error).

A response is a sequence of calls, between which the handler may change the headers as it likes. The
writer below is the list of the calls it gets, so that what the client receives can be read off it.

In pass mode no byte is lost or moved, whenever the limit is crossed. The status is another matter.
`net/http` sends the first one it is told, and nothing after the first byte of the body. The buffer
remembers the last one, so that a handler that changes its mind is heard.
-/

namespace GoMesi

open Strings

/-- `strconv.ParseInt` in base 10 with 64 bits. -/
def Strconv.parseInt (s : Bytes) : Except Strconv.NumError ℤ :=
  let neg := s.head? = some 0x2d
  let digits := if s.head? = some 0x2b ∨ s.head? = some 0x2d then s.tail else s
  match Strconv.parseUint digits with
  | .error err => .error err
  | .ok un =>
    if neg then if 2 ^ 63 < un then .error .range else .ok (-un)
    else if 2 ^ 63 ≤ un then .error .range else .ok un

/-! ## The writer -/

/-- `OnOversize`, with the values that `ParseOnOversize` lets through. -/
inductive OnOversize
  | pass | error
  deriving DecidableEq, Repr

/-- `ParseOnOversize`, `none` for an error. -/
def parseOnOversize (s : Bytes) : Option OnOversize :=
  if s = [] ∨ s = lit "pass" then some .pass
  else if s = lit "error" then some .error
  else none

/-- A call of the writer below. -/
inductive Sent
  | writeHeader (code : ℤ)
  | write (b : Bytes)
  | flush
  deriving DecidableEq, Repr

/-- `ResponseWriter` -/
structure ResponseWriter where
  /-- The calls of the embedded `http.ResponseWriter`, which accepts every write. -/
  sent : List Sent := []
  /-- Whether the embedded writer is an `http.Flusher`. -/
  flusher : Bool := true
  /-- The header map, which the embedded writer shares with the handler. -/
  header : Header := ∅
  statusCode : ℤ := 200
  body : Bytes := []
  maxBody : ℤ := 0
  mode : OnOversize := .pass
  /-- Whether there is a `notify`. -/
  notify : Bool := false
  /-- The calls of `notify`. -/
  notified : List (OnOversize × ℤ × ℤ) := []
  appliesTo : Option (Header → Bool) := none
  decided : Bool := false
  watch : Bool := false
  oversize : Bool := false
  committed : Bool := false

/-- `NewResponseWriter` -/
def newResponseWriter (flusher : Bool) (header : Header) : ResponseWriter := { flusher, header }

namespace ResponseWriter

/-- `SetBodyLimit` -/
def setBodyLimit (rw : ResponseWriter) (maxBody : ℤ) (mode : OnOversize) (notify : Bool) :
    ResponseWriter :=
  { rw with maxBody, mode, notify }

/-- `LimitOnlyIf` -/
def limitOnlyIf (rw : ResponseWriter) (fn : Header → Bool) : ResponseWriter :=
  { rw with appliesTo := some fn }

/-- The calls by which `trigger` sends the part of the body that has been buffered. -/
def bufferedCalls (rw : ResponseWriter) : List Sent :=
  .writeHeader rw.statusCode :: if 0 < rw.body.length then [.write rw.body] else []

/-- The calls of `notify` with the one that `trigger` makes. -/
def notifiedCalls (rw : ResponseWriter) (size : ℤ) : List (OnOversize × ℤ × ℤ) :=
  if rw.notify then rw.notified ++ [(rw.mode, rw.maxBody, size)] else rw.notified

/-- `trigger` -/
def trigger (rw : ResponseWriter) (size : ℤ) : ResponseWriter :=
  let rw := { rw with oversize := true, notified := rw.notifiedCalls size }
  if rw.mode = .pass then
    { rw with committed := true, sent := rw.sent ++ rw.bufferedCalls, body := [] }
  else { rw with body := [] }

/-- `decide` -/
def decide_ (rw : ResponseWriter) : ResponseWriter :=
  if rw.decided then rw
  else if rw.maxBody ≤ 0 then { rw with decided := true }
  else if ¬ hasPrefix (rw.header.get (lit "Content-Type")) (lit "text/html") then
    { rw with decided := true }
  else if rw.appliesTo.any fun fn ↦ ¬ fn rw.header then { rw with decided := true }
  else if rw.statusCode = 204 ∨ rw.statusCode = 304 then { rw with decided := true, watch := true }
  else
    match Strconv.parseInt (rw.header.get (lit "Content-Length")) with
    | .ok n =>
      if rw.maxBody < n then trigger { rw with decided := true, watch := true } n
      else { rw with decided := true, watch := true }
    | .error _ => { rw with decided := true, watch := true }

/-- `Write`, with the length it reports. -/
def write (rw : ResponseWriter) (b : Bytes) : ResponseWriter × ℕ :=
  let rw := rw.decide_
  if rw.committed then ({ rw with sent := rw.sent ++ [.write b] }, b.length)
  else if rw.oversize then (rw, b.length)
  else if rw.watch ∧ rw.maxBody < rw.body.length + b.length then
    let rw := rw.trigger (rw.body.length + b.length)
    if rw.committed then ({ rw with sent := rw.sent ++ [.write b] }, b.length) else (rw, b.length)
  else ({ rw with body := rw.body ++ b }, b.length)

/-- An informational status. -/
def informational (code : ℤ) : Bool := decide (100 ≤ code ∧ code < 200 ∧ code ≠ 101)

/-- `WriteHeader` -/
def writeHeader (rw : ResponseWriter) (code : ℤ) : ResponseWriter :=
  if rw.committed then rw
  else if informational code then rw
  else decide_ { rw with statusCode := code }

/-- `Flush` -/
def flush (rw : ResponseWriter) : ResponseWriter :=
  if rw.committed ∧ rw.flusher then { rw with sent := rw.sent ++ [.flush] } else rw

/-- The answer of `http.Error` with the text of 502. -/
def badGateway : List Sent := [.writeHeader 502, .write (lit "Bad Gateway\n")]

/-- The headers of that answer. -/
def badGatewayHeader : Header :=
  ((∅ : Header).insert (lit "Content-Type") [lit "text/plain; charset=utf-8"]).insert
    (lit "X-Content-Type-Options") [lit "nosniff"]

/-- `HandleOversize` -/
def handleOversize (rw : ResponseWriter) : ResponseWriter × Bool :=
  if ¬ rw.oversize then (rw, false)
  else if rw.mode = .error then
    ({ rw with header := badGatewayHeader, sent := rw.sent ++ badGateway }, true)
  else (rw, true)

/-! ## Runs -/

/-- What a handler does with its writer. -/
inductive Call
  /-- It leaves the header map as it is here. -/
  | header (h : Header)
  | writeHeader (code : ℤ)
  | write (b : Bytes)
  | flush

def step (rw : ResponseWriter) : Call → ResponseWriter
  | .header h => { rw with header := h }
  | .writeHeader code => rw.writeHeader code
  | .write b => (rw.write b).1
  | .flush => rw.flush

def run (rw : ResponseWriter) (calls : List Call) : ResponseWriter := calls.foldl step rw

/-- The slices that have been written, in order. -/
def written (calls : List Call) : Bytes :=
  calls.flatMap fun
    | .write b => b
    | _ => []

/-- The bytes that went to the client. -/
def sentData (sent : List Sent) : Bytes :=
  sent.flatMap fun
    | .write b => b
    | _ => []

/-- What holds between the calls of a handler, when `data` has been written. -/
structure Inv (data : Bytes) (rw : ResponseWriter) : Prop where
  kept : rw.mode = .pass → sentData rw.sent ++ rw.body = data
  committed_body : rw.committed = true → rw.body = []
  not_committed : rw.committed = false → rw.sent = []
  committed_mode : rw.committed = true → rw.mode = .pass
  committed_iff : rw.mode = .pass → (rw.committed = true ↔ rw.oversize = true)
  not_decided : rw.decided = false → rw.body = [] ∧ rw.oversize = false
  bounded : rw.watch = true → 0 < rw.maxBody ∧ (rw.body.length : ℤ) ≤ rw.maxBody

@[simp] theorem sentData_append (sent sent' : List Sent) :
    sentData (sent ++ sent') = sentData sent ++ sentData sent' := by
  rw [sentData, List.flatMap_append]
  rfl

@[simp] theorem written_append (calls calls' : List Call) :
    written (calls ++ calls') = written calls ++ written calls' := by
  rw [written, List.flatMap_append]
  rfl

@[simp] theorem written_nil : written [] = [] := rfl

@[simp] theorem written_header (h : Header) : written [.header h] = [] := rfl

@[simp] theorem written_writeHeader (code : ℤ) : written [.writeHeader code] = [] := rfl

@[simp] theorem written_write (b : Bytes) : written [.write b] = b := List.append_nil b

@[simp] theorem written_flush : written [.flush] = [] := rfl

@[simp] theorem sentData_write (b : Bytes) : sentData [.write b] = b := List.append_nil b

@[simp] theorem sentData_flush : sentData [.flush] = [] := rfl

/-- The part that has been buffered goes out as it is. -/
theorem sentData_bufferedCalls (rw : ResponseWriter) : sentData rw.bufferedCalls = rw.body := by
  rw [bufferedCalls]
  split_ifs with h
  · simp [sentData]
  · rw [List.length_pos_iff, not_not] at h
    simp [sentData, h]

theorem trigger_of_pass {rw : ResponseWriter} (h : rw.mode = .pass) (size : ℤ) :
    rw.trigger size =
      { rw with
        oversize := true, notified := rw.notifiedCalls size, committed := true
        sent := rw.sent ++ rw.bufferedCalls, body := [] } := if_pos h

theorem trigger_of_ne_pass {rw : ResponseWriter} (h : rw.mode ≠ .pass) (size : ℤ) :
    rw.trigger size =
      { rw with oversize := true, notified := rw.notifiedCalls size, body := [] } := if_neg h

theorem decided_trigger (rw : ResponseWriter) (size : ℤ) :
    (rw.trigger size).decided = rw.decided := by
  by_cases h : rw.mode = .pass
  · rw [trigger_of_pass h]
  · rw [trigger_of_ne_pass h]

theorem oversize_trigger (rw : ResponseWriter) (size : ℤ) : (rw.trigger size).oversize = true := by
  by_cases h : rw.mode = .pass
  · rw [trigger_of_pass h]
  · rw [trigger_of_ne_pass h]

/-! ### The limit does not change -/

/-- The limit of a writer is that of another. -/
def SameLimit (rw rw' : ResponseWriter) : Prop := rw'.mode = rw.mode ∧ rw'.maxBody = rw.maxBody

theorem sameLimit_trigger (rw : ResponseWriter) (size : ℤ) : SameLimit rw (rw.trigger size) := by
  by_cases h : rw.mode = .pass
  · rw [trigger_of_pass h]
    exact ⟨rfl, rfl⟩
  · rw [trigger_of_ne_pass h]
    exact ⟨rfl, rfl⟩

theorem sameLimit_decide_ (rw : ResponseWriter) : SameLimit rw rw.decide_ := by
  rw [decide_]
  split_ifs <;> try exact ⟨rfl, rfl⟩
  split
  · split_ifs
    · exact sameLimit_trigger _ _
    · exact ⟨rfl, rfl⟩
  · exact ⟨rfl, rfl⟩

theorem sameLimit_step (rw : ResponseWriter) (c : Call) : SameLimit rw (rw.step c) := by
  cases c with
  | header h => exact ⟨rfl, rfl⟩
  | writeHeader code =>
    rw [step, writeHeader]
    split_ifs
    · exact ⟨rfl, rfl⟩
    · exact ⟨rfl, rfl⟩
    · exact sameLimit_decide_ { rw with statusCode := code }
  | write b =>
    have hdecide := sameLimit_decide_ rw
    have htrigger := sameLimit_trigger rw.decide_ (rw.decide_.body.length + b.length)
    rw [step, write]
    dsimp only
    split_ifs
    · exact hdecide
    · exact hdecide
    · exact ⟨htrigger.1.trans hdecide.1, htrigger.2.trans hdecide.2⟩
    · exact ⟨htrigger.1.trans hdecide.1, htrigger.2.trans hdecide.2⟩
    · exact hdecide
  | flush =>
    rw [step, flush]
    split_ifs <;> exact ⟨rfl, rfl⟩

theorem sameLimit_run (rw : ResponseWriter) (calls : List Call) : SameLimit rw (rw.run calls) := by
  induction calls using List.reverseRecOn with
  | nil => exact ⟨rfl, rfl⟩
  | append_singleton calls c ih =>
    rw [run, List.foldl_append]
    have hstep := sameLimit_step (rw.run calls) c
    exact ⟨hstep.1.trans ih.1, hstep.2.trans ih.2⟩

/-! ### Nothing is lost -/

namespace Inv

variable {rw : ResponseWriter} {data : Bytes}

/-- Crossing the limit sends what has been buffered, or drops it. -/
theorem trigger (h : Inv data rw) (hcommitted : rw.committed = false) (hdecided : rw.decided = true)
    (hwatch : rw.watch = true) (size : ℤ) : Inv data (rw.trigger size) := by
  have hpos := (h.bounded hwatch).1
  have hbounded : (([] : Bytes).length : ℤ) ≤ rw.maxBody := hpos.le
  have hundecided {p : Prop} (hnot : rw.decided = false) : p := by
    rw [hdecided] at hnot
    cases hnot
  by_cases hmode : rw.mode = .pass
  · rw [trigger_of_pass hmode]
    constructor
    · intro _
      dsimp only
      rw [sentData_append, sentData_bufferedCalls, List.append_nil]
      exact h.kept hmode
    · exact fun _ ↦ rfl
    · intro hfalse
      cases hfalse
    · exact fun _ ↦ hmode
    · exact fun _ ↦ Iff.rfl
    · exact hundecided
    · exact fun _ ↦ ⟨hpos, hbounded⟩
  · rw [trigger_of_ne_pass hmode]
    constructor
    · exact fun hpass ↦ absurd hpass hmode
    · exact fun _ ↦ rfl
    · exact fun _ ↦ h.not_committed hcommitted
    · exact h.committed_mode
    · exact fun hpass ↦ absurd hpass hmode
    · exact hundecided
    · exact fun _ ↦ ⟨hpos, hbounded⟩

/-- Before the decision nothing has been buffered, so that it may find the body too large. -/
theorem decide_ (h : Inv data rw) : Inv data rw.decide_ ∧ rw.decide_.decided = true := by
  rw [ResponseWriter.decide_]
  by_cases hdecided : rw.decided = true
  · rw [if_pos hdecided]
    exact ⟨h, hdecided⟩
  rw [if_neg hdecided]
  obtain ⟨hbody, hoversize⟩ := h.not_decided (Bool.eq_false_iff.mpr hdecided)
  have hcommitted : rw.committed = false := by
    rw [Bool.eq_false_iff]
    intro hc
    have := (h.committed_iff (h.committed_mode hc)).mp hc
    rw [hoversize] at this
    cases this
  have hplain : Inv data { rw with decided := true } :=
    ⟨h.kept, h.committed_body, h.not_committed, h.committed_mode, h.committed_iff, nofun, h.bounded⟩
  by_cases hlimit : rw.maxBody ≤ 0
  · rw [if_pos hlimit]
    exact ⟨hplain, rfl⟩
  rw [if_neg hlimit]
  have hpos : 0 < rw.maxBody := not_le.mp hlimit
  have hbounded : (rw.body.length : ℤ) ≤ rw.maxBody := by
    rw [hbody]
    exact hpos.le
  have hwatched : Inv data { rw with decided := true, watch := true } :=
    ⟨h.kept, h.committed_body, h.not_committed, h.committed_mode, h.committed_iff, nofun,
      fun _ ↦ ⟨hpos, hbounded⟩⟩
  split_ifs
  · exact ⟨hplain, rfl⟩
  · exact ⟨hwatched, rfl⟩
  · split
    · split_ifs
      · exact ⟨hwatched.trigger hcommitted rfl rfl _, decided_trigger _ _⟩
      · exact ⟨hwatched, rfl⟩
    · exact ⟨hwatched, rfl⟩
  · exact ⟨hplain, rfl⟩

theorem write (h : Inv data rw) (b : Bytes) : Inv (data ++ b) (rw.write b).1 := by
  obtain ⟨hdecide, hdecided⟩ := h.decide_
  rw [ResponseWriter.write]
  generalize rw.decide_ = rw' at *
  have hundecided {p : Prop} (hnot : rw'.decided = false) : p := by
    rw [hdecided] at hnot
    cases hnot
  -- a writer that streams gets the slice at once
  have hstream {rw₁ : ResponseWriter} (h₁ : Inv data rw₁) (hd : rw₁.decided = true)
      (hc : rw₁.committed = true) :
      Inv (data ++ b) { rw₁ with sent := rw₁.sent ++ [.write b] } := by
    constructor
    · intro hpass
      have hkept := h₁.kept hpass
      rw [h₁.committed_body hc, List.append_nil] at hkept
      dsimp only
      rw [h₁.committed_body hc, sentData_append, hkept, List.append_nil, sentData_write]
    · exact h₁.committed_body
    · intro hfalse
      exact absurd (hc.symm.trans hfalse) (by decide)
    · exact h₁.committed_mode
    · exact h₁.committed_iff
    · intro hnot
      exact absurd (hd.symm.trans hnot) (by decide)
    · exact h₁.bounded
  -- a writer that drops what it gets is not in pass mode
  have hdrop {rw₁ : ResponseWriter} (h₁ : Inv data rw₁) (hd : rw₁.decided = true)
      (hc : ¬ rw₁.committed = true) (ho : rw₁.oversize = true) : Inv (data ++ b) rw₁ := by
    constructor
    · exact fun hpass ↦ absurd ((h₁.committed_iff hpass).mpr ho) hc
    · exact h₁.committed_body
    · exact h₁.not_committed
    · exact h₁.committed_mode
    · exact h₁.committed_iff
    · intro hnot
      exact absurd (hd.symm.trans hnot) (by decide)
    · exact h₁.bounded
  dsimp only
  split_ifs with hcommitted hoversize hover hcommitted'
  · exact hstream hdecide hdecided hcommitted
  · exact hdrop hdecide hdecided hcommitted hoversize
  · have htrigger := hdecide.trigger (Bool.eq_false_iff.mpr hcommitted) hdecided hover.1
      (rw'.body.length + b.length)
    exact hstream htrigger ((decided_trigger _ _).trans hdecided) hcommitted'
  · have htrigger := hdecide.trigger (Bool.eq_false_iff.mpr hcommitted) hdecided hover.1
      (rw'.body.length + b.length)
    exact hdrop htrigger ((decided_trigger _ _).trans hdecided) hcommitted' (oversize_trigger _ _)
  · constructor
    · intro hpass
      dsimp only
      rw [← List.append_assoc, hdecide.kept hpass]
    · exact fun hc ↦ absurd hc hcommitted
    · exact hdecide.not_committed
    · exact hdecide.committed_mode
    · exact hdecide.committed_iff
    · exact hundecided
    · intro hwatch
      have hle := not_and.mp hover hwatch
      refine ⟨(hdecide.bounded hwatch).1, ?_⟩
      dsimp only
      rw [List.length_append, Nat.cast_add]
      exact not_lt.mp hle

theorem writeHeader (h : Inv data rw) (code : ℤ) : Inv data (rw.writeHeader code) := by
  rw [ResponseWriter.writeHeader]
  split_ifs
  · exact h
  · exact h
  · have hcode : Inv data { rw with statusCode := code } :=
      ⟨h.kept, h.committed_body, h.not_committed, h.committed_mode, h.committed_iff, h.not_decided,
        h.bounded⟩
    exact hcode.decide_.1

theorem flush (h : Inv data rw) : Inv data rw.flush := by
  rw [ResponseWriter.flush]
  split_ifs with hflush
  · constructor
    · intro hpass
      dsimp only
      rw [sentData_append, sentData_flush, List.append_nil]
      exact h.kept hpass
    · exact h.committed_body
    · intro hfalse
      exact absurd (hflush.1.symm.trans hfalse) (by decide)
    · exact h.committed_mode
    · exact h.committed_iff
    · exact h.not_decided
    · exact h.bounded
  · exact h

/-- One call. -/
theorem step (h : Inv data rw) (c : Call) : Inv (data ++ written [c]) (rw.step c) := by
  cases c with
  | header hd =>
    have hheader : Inv data { rw with header := hd } :=
      ⟨h.kept, h.committed_body, h.not_committed, h.committed_mode, h.committed_iff, h.not_decided,
        h.bounded⟩
    rw [written_header, List.append_nil]
    exact hheader
  | writeHeader code =>
    rw [written_writeHeader, List.append_nil]
    exact h.writeHeader code
  | write b =>
    rw [written_write]
    exact h.write b
  | flush =>
    rw [written_flush, List.append_nil]
    exact h.flush

/-- Any number of calls. -/
theorem run (h : Inv data rw) (calls : List Call) : Inv (data ++ written calls) (rw.run calls) := by
  induction calls using List.reverseRecOn with
  | nil =>
    rw [written_nil, List.append_nil]
    exact h
  | append_singleton calls c ih =>
    rw [ResponseWriter.run, List.foldl_append, written_append, ← List.append_assoc]
    exact ih.step c

end Inv

/-! ## The body -/

/-- How an integration sets its writer up. -/
structure Limit where
  maxBody : ℤ := 0
  mode : OnOversize := .pass
  notify : Bool := false
  appliesTo : Option (Header → Bool) := none

/-- The writer a handler is given. -/
def Limit.writer (l : Limit) (flusher : Bool) (header : Header) : ResponseWriter :=
  let rw := (newResponseWriter flusher header).setBodyLimit l.maxBody l.mode l.notify
  match l.appliesTo with
  | some fn => rw.limitOnlyIf fn
  | none => rw

theorem inv_writer (l : Limit) (flusher : Bool) (header : Header) :
    Inv [] (l.writer flusher header) := by
  rw [Limit.writer]
  cases l.appliesTo <;>
    exact ⟨fun _ ↦ rfl, fun _ ↦ rfl, fun _ ↦ rfl, nofun, fun _ ↦ Iff.rfl, fun _ ↦ ⟨rfl, rfl⟩, nofun⟩

theorem limit_run_writer (l : Limit) (flusher : Bool) (header : Header) (calls : List Call) :
    ((l.writer flusher header).run calls).mode = l.mode ∧
      ((l.writer flusher header).run calls).maxBody = l.maxBody := by
  have hrun := sameLimit_run (l.writer flusher header) calls
  have hwriter : (l.writer flusher header).mode = l.mode ∧
      (l.writer flusher header).maxBody = l.maxBody := by
    rw [Limit.writer]
    cases l.appliesTo <;> exact ⟨rfl, rfl⟩
  exact ⟨hrun.1.trans hwriter.1, hrun.2.trans hwriter.2⟩

/-- A writer that drops what it gets. -/
structure Dropping (rw : ResponseWriter) : Prop where
  decided : rw.decided = true
  oversize : rw.oversize = true
  held : rw.committed = false

/-- A writer that drops what it gets sends nothing. -/
theorem Dropping.step {rw : ResponseWriter} (h : rw.Dropping) (c : Call) :
    (rw.step c).Dropping ∧ (rw.step c).sent = rw.sent := by
  have hcommitted : ¬ rw.committed = true := by
    rw [h.held]
    decide
  have hdecide : rw.decide_ = rw := if_pos h.decided
  cases c with
  | header hd => exact ⟨⟨h.decided, h.oversize, h.held⟩, rfl⟩
  | writeHeader code =>
    rw [ResponseWriter.step, writeHeader, if_neg hcommitted]
    split_ifs
    · exact ⟨h, rfl⟩
    · have hdecide' : decide_ { rw with statusCode := code } = { rw with statusCode := code } :=
        if_pos h.decided
      rw [hdecide']
      exact ⟨⟨h.decided, h.oversize, h.held⟩, rfl⟩
  | write b =>
    rw [ResponseWriter.step, write, hdecide]
    dsimp only
    rw [if_neg hcommitted, if_pos h.oversize]
    exact ⟨h, rfl⟩
  | flush =>
    rw [ResponseWriter.step, flush, if_neg fun hc ↦ hcommitted hc.1]
    exact ⟨h, rfl⟩

theorem Dropping.run {rw : ResponseWriter} (h : rw.Dropping) (calls : List Call) :
    (rw.run calls).Dropping ∧ (rw.run calls).sent = rw.sent := by
  induction calls using List.reverseRecOn with
  | nil => exact ⟨h, rfl⟩
  | append_singleton calls c ih =>
    rw [ResponseWriter.run, List.foldl_append]
    have hstep := ih.1.step c
    exact ⟨hstep.1, hstep.2.trans ih.2⟩

end ResponseWriter

end GoMesi
