import GoMesi.Mesi.Include

/-!
# The concurrent fetch mode

`fetchConcurrent` starts a task for each of its two URLs and collects what they send to a channel
with room for two. Both the tasks and the collecting loop also watch the context that is cancelled
when the call returns. A call is a state that any of the three parties may change, one operation at a
time, in any order.

## The invariant

As long as the call waits, its context is open, so that no task has dropped its result: what has been
sent is what has been received, which are errors, followed by what is in the channel. A task that
sends has not sent before, so that the channel has room for it.
-/

namespace GoMesi.FetchMode

/-! ## A call -/

/-- The two tasks of a call. -/
inductive Task
  | src | alt
  deriving DecidableEq, Repr

/-- How far `runTask` is. -/
inductive Phase
  /-- `singleFetchUrlWithContext` has not returned. -/
  | fetching
  /-- It has, and the task is at the `select`. -/
  | sending (result : FetchResult)
  /-- The result is in the channel. -/
  | sent
  /-- The other branch of the `select` has been taken. -/
  | dropped

/-- How far the collecting loop is. -/
inductive Loop
  | waiting (i : ℕ) (lastErr : Option GoError)
  | returned (result : FetchResult)

/-- A call of `fetchConcurrent` with two URLs, after it has started its tasks. -/
structure Call where
  phase : Task → Phase := fun _ ↦ .fetching
  resultChan : List FetchResult := []
  /-- `ctx.Done()` is closed. -/
  done : Bool := false
  loop : Loop := .waiting 0 none

/-- What can happen next. -/
inductive Action
  /-- `singleFetchUrlWithContext` returns. -/
  | fetched (task : Task) (result : FetchResult)
  /-- A task sends its result. -/
  | send (task : Task)
  /-- A task finds the context closed. -/
  | drop (task : Task)
  /-- The loop receives a result. -/
  | receive
  /-- The loop finds the context closed. -/
  | ctxDone
  /-- The loop has ended. -/
  | exhausted
  /-- The caller's context is cancelled. -/
  | cancelParent

/-- One operation of `fetchConcurrent`, where `ctxErr` is what `ctx.Err()` returns. -/
def Call.step (ctxErr : GoError) (s : Call) : Action → Option Call
  | .fetched task result =>
    match s.phase task with
    | .fetching => some { s with phase := Function.update s.phase task (.sending result) }
    | _ => none
  | .send task =>
    match s.phase task with
    | .sending result =>
      if s.resultChan.length < 2 then
        some { s with
          phase := Function.update s.phase task .sent
          resultChan := s.resultChan ++ [result] }
      else none
    | _ => none
  | .drop task =>
    match s.phase task with
    | .sending _ =>
      if s.done then some { s with phase := Function.update s.phase task .dropped } else none
    | _ => none
  | .receive =>
    match s.loop, s.resultChan with
    | .waiting i _, result :: rest =>
      if i < 2 then
        match result with
        | .ok out =>
          some { s with resultChan := rest, done := true, loop := .returned (.ok out) }
        | .error err => some { s with resultChan := rest, loop := .waiting (i + 1) (some err) }
      else none
    | _, _ => none
  | .ctxDone =>
    match s.loop with
    | .waiting i lastErr =>
      if i < 2 ∧ s.done then
        some { s with loop := .returned (.error (lastErr.getD ctxErr)) }
      else none
    | .returned _ => none
  | .exhausted =>
    match s.loop with
    | .waiting i lastErr =>
      if i < 2 then none
      else
        some { s with
          done := true
          loop := .returned (match lastErr with
            | some err => .error err
            | none => .ok ([], false)) }
    | .returned _ => none
  | .cancelParent => some { s with done := true }

/-- The call after some operations, if they are possible. -/
def Call.run (ctxErr : GoError) (s : Call) (acts : List Action) : Option Call :=
  acts.foldlM (Call.step ctxErr) s

/-! ## What has happened -/

/-- The result of a task, once it has fetched. -/
def fetchedBy (acts : List Action) (task : Task) : Option FetchResult :=
  acts.findSome? fun
    | .fetched task' result => if task' = task then some result else none
    | _ => none

/-- The tasks that have sent, in order. -/
def sentBy (acts : List Action) : List Task :=
  acts.filterMap fun
    | .send task => some task
    | _ => none

/-- The results that have been sent, in order. -/
def sentResults (acts : List Action) : List FetchResult := (sentBy acts).filterMap (fetchedBy acts)

/-- The call waits. -/
def Call.Waits (s : Call) : Prop := ∃ i lastErr, s.loop = .waiting i lastErr

/-- A task has fetched while the call was waiting. -/
def CompletesWaiting (ctxErr : GoError) (acts : List Action) (task : Task) (result : FetchResult) :
    Prop :=
  ∃ pre post s, acts = pre ++ .fetched task result :: post ∧ Call.run ctxErr {} pre = some s ∧ s.Waits

variable {ctxErr : GoError} {acts : List Action} {s s' : Call}

theorem run_append (s : Call) (acts : List Action) (act : Action) :
    s.run ctxErr (acts ++ [act]) = (s.run ctxErr acts).bind fun s ↦ s.step ctxErr act := by
  rw [Call.run, List.foldlM_append]
  simp [Call.run]

theorem fetchedBy_append (acts : List Action) (act : Action) (task : Task) :
    fetchedBy (acts ++ [act]) task = (fetchedBy acts task).or (fetchedBy [act] task) :=
  List.findSome?_append

theorem sentBy_append (acts : List Action) (act : Action) :
    sentBy (acts ++ [act]) = sentBy acts ++ sentBy [act] :=
  List.filterMap_append

theorem CompletesWaiting.append {task : Task} {result : FetchResult}
    (h : CompletesWaiting ctxErr acts task result) (more : List Action) :
    CompletesWaiting ctxErr (acts ++ more) task result := by
  obtain ⟨pre, post, s, rfl, hrun, hwaits⟩ := h
  exact ⟨pre, post ++ more, s, by simp, hrun, hwaits⟩

/-! ## What an operation does -/

theorem step_fetched {task : Task} {result : FetchResult}
    (h : s.step ctxErr (.fetched task result) = some s') :
    s.phase task = .fetching ∧
      s' = { s with phase := Function.update s.phase task (.sending result) } := by
  rw [Call.step] at h
  split at h
  · rename_i hphase
    exact ⟨hphase, (Option.some_inj.mp h).symm⟩
  · cases h

theorem step_send {task : Task} (h : s.step ctxErr (.send task) = some s') :
    ∃ result, s.phase task = .sending result ∧ s.resultChan.length < 2 ∧
      s' = { s with
        phase := Function.update s.phase task .sent
        resultChan := s.resultChan ++ [result] } := by
  rw [Call.step] at h
  split at h
  · rename_i result hphase
    split_ifs at h with hroom
    exact ⟨result, hphase, hroom, (Option.some_inj.mp h).symm⟩
  · cases h

theorem step_drop {task : Task} (h : s.step ctxErr (.drop task) = some s') :
    ∃ result, s.phase task = .sending result ∧ s.done = true ∧
      s' = { s with phase := Function.update s.phase task .dropped } := by
  rw [Call.step] at h
  split at h
  · rename_i result hphase
    split_ifs at h with hdone
    exact ⟨result, hphase, hdone, (Option.some_inj.mp h).symm⟩
  · cases h

/-- A result that is received ends the loop, or is the last error. -/
inductive Received (s : Call) : Call → Prop
  | ok {i : ℕ} {lastErr : Option GoError} {out : Bytes × Bool} {rest : List FetchResult}
    (hloop : s.loop = .waiting i lastErr) (hchan : s.resultChan = .ok out :: rest) :
    Received s { s with resultChan := rest, done := true, loop := .returned (.ok out) }
  | error {i : ℕ} {lastErr : Option GoError} {err : GoError} {rest : List FetchResult}
    (hi : i < 2) (hloop : s.loop = .waiting i lastErr) (hchan : s.resultChan = .error err :: rest) :
    Received s { s with resultChan := rest, loop := .waiting (i + 1) (some err) }

theorem step_receive (h : s.step ctxErr .receive = some s') : Received s s' := by
  rw [Call.step] at h
  split at h
  · rename_i i lastErr result rest hloop hchan
    split_ifs at h with hi
    cases result with
    | ok out =>
      cases h
      exact .ok hloop hchan
    | error err =>
      cases h
      exact .error hi hloop hchan
  · cases h

theorem step_ctxDone (h : s.step ctxErr .ctxDone = some s') :
    ∃ i lastErr, s.loop = .waiting i lastErr ∧ s.done = true ∧
      s' = { s with loop := .returned (.error (lastErr.getD ctxErr)) } := by
  rw [Call.step] at h
  split at h
  · rename_i i lastErr hloop
    split_ifs at h with hdone
    exact ⟨i, lastErr, hloop, hdone.2, (Option.some_inj.mp h).symm⟩
  · cases h

theorem step_exhausted (h : s.step ctxErr .exhausted = some s') :
    ∃ i lastErr, s.loop = .waiting i lastErr ∧ 2 ≤ i ∧
      s' = { s with
        done := true
        loop := .returned (match lastErr with
          | some err => .error err
          | none => .ok ([], false)) } := by
  rw [Call.step] at h
  split at h
  · rename_i i lastErr hloop
    split_ifs at h with hi
    exact ⟨i, lastErr, hloop, not_lt.mp hi, (Option.some_inj.mp h).symm⟩
  · cases h

/-! ## The invariant -/

/-- What has happened to a task, by its phase. -/
inductive Known (acts : List Action) (done : Bool) (task : Task) : Phase → Prop
  | fetching (hfetched : fetchedBy acts task = none) (hsent : task ∉ sentBy acts) :
    Known acts done task .fetching
  | sending {result : FetchResult} (hfetched : fetchedBy acts task = some result)
    (hsent : task ∉ sentBy acts) : Known acts done task (.sending result)
  | sent {result : FetchResult} (hfetched : fetchedBy acts task = some result)
    (hsent : task ∈ sentBy acts) : Known acts done task .sent
  | dropped {result : FetchResult} (hfetched : fetchedBy acts task = some result)
    (hsent : task ∉ sentBy acts) (hdone : done = true) : Known acts done task .dropped

/-- What has happened to the call, by how far the loop is. -/
inductive Progress (ctxErr : GoError) (acts : List Action) (s : Call) : Loop → Prop
  /-- Errors have been received, and the rest of what has been sent is in the channel. -/
  | waiting (received : List GoError) (hdone : s.done = false)
    (hsent : sentResults acts = received.map .error ++ s.resultChan)
    (hcompletes : ∀ task result, fetchedBy acts task = some result →
      CompletesWaiting ctxErr acts task result) :
    Progress ctxErr acts s (.waiting received.length received.getLast?)
  | succeeded {out : Bytes × Bool} (task : Task)
    (hcompletes : CompletesWaiting ctxErr acts task (.ok out)) :
    Progress ctxErr acts s (.returned (.ok out))
  | failed {firstErr err : GoError} (first last : Task) (hsent : sentBy acts = [first, last])
    (hfirst : CompletesWaiting ctxErr acts first (.error firstErr))
    (hlast : CompletesWaiting ctxErr acts last (.error err)) :
    Progress ctxErr acts s (.returned (.error err))

/-- The invariant of a call whose parent context is not cancelled. -/
structure Inv (ctxErr : GoError) (acts : List Action) (s : Call) : Prop where
  known : ∀ task, Known acts s.done task (s.phase task)
  nodup : (sentBy acts).Nodup
  room : s.resultChan.length ≤ (sentBy acts).length
  progress : Progress ctxErr acts s s.loop

theorem Known.isSome {task : Task} {done : Bool} {phase : Phase} (h : Known acts done task phase)
    (hsent : task ∈ sentBy acts) : (fetchedBy acts task).isSome := by
  cases h with
  | fetching _ hnot => exact absurd hsent hnot
  | sending hfetched _ => rw [hfetched]; rfl
  | sent hfetched _ => rw [hfetched]; rfl
  | dropped hfetched _ _ => rw [hfetched]; rfl

/-- An operation that is not one of the task leaves it as it is known. -/
theorem Known.append {task : Task} {done done' : Bool} {phase : Phase} {act : Action}
    (h : Known acts done task phase) (hfetched : fetchedBy [act] task = none)
    (hsent : task ∉ sentBy [act]) (hdone : done = true → done' = true) :
    Known (acts ++ [act]) done' task phase := by
  have hfetched' : fetchedBy (acts ++ [act]) task = fetchedBy acts task := by
    rw [fetchedBy_append, hfetched, Option.or_none]
  have hsent' : task ∈ sentBy (acts ++ [act]) ↔ task ∈ sentBy acts := by
    rw [sentBy_append, List.mem_append, or_iff_left hsent]
  cases h with
  | fetching hf hs => exact .fetching (hfetched'.trans hf) (hsent'.not.mpr hs)
  | sending hf hs => exact .sending (hfetched'.trans hf) (hsent'.not.mpr hs)
  | sent hf hs => exact .sent (hfetched'.trans hf) (hsent'.mpr hs)
  | dropped hf hs hd => exact .dropped (hfetched'.trans hf) (hsent'.not.mpr hs) (hdone hd)

theorem sentResults_append (h : ∀ task ∈ sentBy acts, (fetchedBy acts task).isSome) (act : Action) :
    sentResults (acts ++ [act]) =
      sentResults acts ++ (sentBy [act]).filterMap (fetchedBy (acts ++ [act])) := by
  rw [sentResults, sentBy_append, List.filterMap_append, sentResults]
  congr 1
  refine List.filterMap_congr fun task htask ↦ ?_
  obtain ⟨result, hresult⟩ := Option.isSome_iff_exists.mp (h task htask)
  rw [fetchedBy_append, hresult]
  rfl

theorem Inv.initial (ctxErr : GoError) : Inv ctxErr [] {} where
  known _ := .fetching rfl List.not_mem_nil
  nodup := List.nodup_nil
  room := le_refl 0
  progress := .waiting [] rfl rfl nofun

theorem Inv.isSome (h : Inv ctxErr acts s) : ∀ task ∈ sentBy acts, (fetchedBy acts task).isSome :=
  fun task ↦ (h.known task).isSome

/-- Two tasks are all there are. -/
theorem mem_pair {first last : Task} (h : [first, last].Nodup) (task : Task) :
    task ∈ [first, last] := by
  revert h
  cases first <;> cases last <;> cases task <;> decide

/-- What is known of a call that has returned stays true, unless a task sends that has sent. -/
theorem Progress.append {loop : Loop} (h : Progress ctxErr acts s loop) {result : FetchResult}
    (hloop : loop = .returned result) {act : Action} (hsent : sentBy [act] = []) (s' : Call) :
    Progress ctxErr (acts ++ [act]) s' loop := by
  cases h with
  | waiting _ _ _ _ => cases hloop
  | succeeded task hcompletes => exact .succeeded task (hcompletes.append _)
  | failed first last hboth hfirst hlast =>
    refine .failed first last ?_ (hfirst.append _) (hlast.append _)
    rw [sentBy_append, hsent, List.append_nil]
    exact hboth

theorem eq_pair {tasks : List Task} (hnodup : tasks.Nodup) (hlength : 2 ≤ tasks.length) :
    ∃ first last, tasks = [first, last] := by
  match tasks, hnodup, hlength with
  | [first, last], _, _ => exact ⟨first, last, rfl⟩
  | first :: last :: task :: rest, hnodup, _ =>
    obtain ⟨hfirst, hrest⟩ := List.nodup_cons.mp hnodup
    obtain ⟨hlast, -⟩ := List.nodup_cons.mp hrest
    have hpair : [first, last].Nodup := by
      refine List.nodup_cons.mpr ⟨fun hmem ↦ hfirst ?_, List.nodup_singleton last⟩
      rw [List.mem_singleton.mp hmem]
      exact List.mem_cons_self
    rcases List.mem_cons.mp (mem_pair hpair task) with rfl | hmem
    · exact absurd (List.mem_cons_of_mem _ List.mem_cons_self) hfirst
    · rw [List.mem_singleton.mp hmem] at hlast
      exact absurd List.mem_cons_self hlast

theorem Inv.fetched (h : Inv ctxErr acts s) (hrun : Call.run ctxErr {} acts = some s) {task : Task}
    {result : FetchResult} (hstep : s.step ctxErr (.fetched task result) = some s') :
    Inv ctxErr (acts ++ [.fetched task result]) s' := by
  obtain ⟨hphase, rfl⟩ := step_fetched hstep
  have hsent : sentBy (acts ++ [.fetched task result]) = sentBy acts := by
    rw [sentBy_append]
    exact List.append_nil _
  have hnone : fetchedBy acts task = none ∧ task ∉ sentBy acts := by
    have hknown := h.known task
    rw [hphase] at hknown
    cases hknown with
    | fetching hfetched hnot => exact ⟨hfetched, hnot⟩
  have hother {task' : Task} (hne : task' ≠ task) : fetchedBy [.fetched task result] task' = none := by
    simp [fetchedBy, hne.symm]
  have hown : fetchedBy (acts ++ [.fetched task result]) task = some result := by
    rw [fetchedBy_append, hnone.1]
    simp [fetchedBy]
  refine ⟨fun task' ↦ ?_, hsent ▸ h.nodup, hsent ▸ h.room, ?_⟩
  · dsimp only
    by_cases htask : task' = task
    · subst htask
      rw [Function.update_self]
      exact .sending hown (hsent ▸ hnone.2)
    · rw [Function.update_of_ne htask]
      exact (h.known task').append (hother htask) List.not_mem_nil id
  · dsimp only
    have hprogress := h.progress
    generalize hloop : s.loop = loop at *
    cases hprogress with
    | waiting received hdone hresults hcompletes =>
      refine .waiting received hdone ?_ fun task' result' hfetched ↦ ?_
      · rw [sentResults_append h.isSome, hresults]
        exact List.append_nil _
      · by_cases htask : task' = task
        · subst htask
          rw [hown] at hfetched
          cases hfetched
          exact ⟨acts, [], s, rfl, hrun, _, _, hloop⟩
        · rw [fetchedBy_append, hother htask, Option.or_none] at hfetched
          exact (hcompletes task' result' hfetched).append _
    | succeeded task' hcompletes => exact .succeeded task' (hcompletes.append _)
    | failed first last hboth hfirst hlast =>
      exact .failed first last (hsent.trans hboth) (hfirst.append _) (hlast.append _)

theorem Inv.send (h : Inv ctxErr acts s) {task : Task}
    (hstep : s.step ctxErr (.send task) = some s') : Inv ctxErr (acts ++ [.send task]) s' := by
  obtain ⟨result, hphase, hroom, rfl⟩ := step_send hstep
  have hsent : sentBy (acts ++ [.send task]) = sentBy acts ++ [task] := sentBy_append _ _
  have hfetched (task' : Task) : fetchedBy (acts ++ [.send task]) task' = fetchedBy acts task' := by
    rw [fetchedBy_append]
    exact Option.or_none
  have hknown : fetchedBy acts task = some result ∧ task ∉ sentBy acts := by
    have hknown := h.known task
    rw [hphase] at hknown
    cases hknown with
    | sending hf hs => exact ⟨hf, hs⟩
  have hnodup : (sentBy acts ++ [task]).Nodup :=
    List.nodup_append.mpr ⟨h.nodup, List.nodup_singleton _, by
      rintro a ha b hb rfl
      exact hknown.2 (List.mem_singleton.mp hb ▸ ha)⟩
  refine ⟨fun task' ↦ ?_, hsent ▸ hnodup, ?_, ?_⟩
  · dsimp only
    by_cases htask : task' = task
    · subst htask
      rw [Function.update_self]
      refine .sent ((hfetched task').trans hknown.1) ?_
      rw [hsent]
      exact List.mem_append_right _ (List.mem_singleton_self _)
    · rw [Function.update_of_ne htask]
      refine (h.known task').append rfl ?_ id
      exact fun hmem ↦ htask (List.mem_singleton.mp hmem)
  · rw [hsent, List.length_append, List.length_append]
    exact Nat.add_le_add_right h.room 1
  · dsimp only
    have hprogress := h.progress
    generalize hloop : s.loop = loop at *
    cases hprogress with
    | waiting received hdone hresults hcompletes =>
      refine .waiting received hdone ?_ fun task' result' hfetched' ↦ ?_
      · have hown : (sentBy [.send task]).filterMap (fetchedBy (acts ++ [.send task])) = [result] := by
          have hsome : fetchedBy (acts ++ [.send task]) task = some result :=
            (hfetched task).trans hknown.1
          show List.filterMap _ [task] = _
          rw [List.filterMap_cons_some hsome, List.filterMap_nil]
        rw [sentResults_append h.isSome, hresults, hown, List.append_assoc]
      · exact (hcompletes task' result' ((hfetched task').symm.trans hfetched')).append _
    | succeeded task' hcompletes => exact .succeeded task' (hcompletes.append _)
    | failed first last hboth _ _ =>
      have hnodup := h.nodup
      rw [hboth] at hnodup
      exact absurd (mem_pair hnodup task) (hboth ▸ hknown.2)

theorem Inv.drop (h : Inv ctxErr acts s) {task : Task}
    (hstep : s.step ctxErr (.drop task) = some s') : Inv ctxErr (acts ++ [.drop task]) s' := by
  obtain ⟨result, hphase, hdone, rfl⟩ := step_drop hstep
  have hsent : sentBy (acts ++ [.drop task]) = sentBy acts := by
    rw [sentBy_append]
    exact List.append_nil _
  refine ⟨fun task' ↦ ?_, hsent ▸ h.nodup, hsent ▸ h.room, ?_⟩
  · dsimp only
    by_cases htask : task' = task
    · subst htask
      rw [Function.update_self]
      have hknown := h.known task'
      rw [hphase] at hknown
      cases hknown with
      | sending hf hs =>
        have hfetched : fetchedBy (acts ++ [.drop task']) task' = some result := by
          rw [fetchedBy_append, hf]
          rfl
        exact .dropped hfetched (hsent ▸ hs) hdone
    · rw [Function.update_of_ne htask]
      exact (h.known task').append rfl List.not_mem_nil id
  · have hprogress := h.progress
    generalize hloop : s.loop = loop at *
    cases loop with
    | waiting i lastErr =>
      cases hprogress with
      | waiting _ hopen _ _ =>
        rw [hopen] at hdone
        cases hdone
    | returned result => exact hprogress.append rfl rfl _

/-- An operation of the loop leaves what is known of the tasks. -/
theorem Inv.known_append (h : Inv ctxErr acts s) {act : Action}
    (hfetched : ∀ task, fetchedBy [act] task = none) (hsent : sentBy [act] = []) {done : Bool}
    (hdone : s.done = true → done = true) (task : Task) :
    Known (acts ++ [act]) done task (s.phase task) := by
  refine (h.known task).append (hfetched task) ?_ hdone
  rw [hsent]
  exact List.not_mem_nil

theorem Inv.receive (h : Inv ctxErr acts s) (hstep : s.step ctxErr .receive = some s') :
    Inv ctxErr (acts ++ [.receive]) s' := by
  have hsent : sentBy (acts ++ [.receive]) = sentBy acts := by
    rw [sentBy_append]
    exact List.append_nil _
  have hfetched (task : Task) : fetchedBy (acts ++ [.receive]) task = fetchedBy acts task := by
    rw [fetchedBy_append]
    exact Option.or_none
  have hprogress := h.progress
  have hroom := h.room
  -- What is received has been sent by one of the tasks.
  have hfrom {result : FetchResult} (hmem : result ∈ sentResults acts) :
      ∃ task, fetchedBy acts task = some result := by
    obtain ⟨task, -, hresult⟩ := List.mem_filterMap.mp hmem
    exact ⟨task, hresult⟩
  cases step_receive hstep with
  | @ok i lastErr out rest hloop hchan =>
    rw [hchan, List.length_cons] at hroom
    rw [hloop] at hprogress
    refine ⟨h.known_append (fun _ ↦ rfl) rfl fun _ ↦ rfl, hsent ▸ h.nodup, ?_, ?_⟩
    · rw [hsent]
      exact (Nat.le_succ _).trans hroom
    · cases hprogress with
      | waiting received hdone hresults hcompletes =>
        have hmem : .ok out ∈ sentResults acts := by
          rw [hresults, hchan]
          exact List.mem_append_right _ List.mem_cons_self
        obtain ⟨task, htask⟩ := hfrom hmem
        exact .succeeded task ((hcompletes task _ htask).append _)
  | @error i lastErr err rest _ hloop hchan =>
    rw [hchan, List.length_cons] at hroom
    rw [hloop] at hprogress
    refine ⟨h.known_append (fun _ ↦ rfl) rfl id, hsent ▸ h.nodup, ?_, ?_⟩
    · rw [hsent]
      exact (Nat.le_succ _).trans hroom
    · cases hprogress with
      | waiting received hdone hresults hcompletes =>
        have hnext : Progress ctxErr (acts ++ [.receive])
            { s with resultChan := rest, loop := .waiting (received.length + 1) (some err) }
            (.waiting (received ++ [err]).length (received ++ [err]).getLast?) := by
          refine .waiting (received ++ [err]) hdone ?_ fun task result hresult ↦ ?_
          · rw [sentResults_append h.isSome, hresults, hchan, List.map_append, List.append_assoc]
            simp [sentBy]
          · exact (hcompletes task result ((hfetched task).symm.trans hresult)).append _
        rw [List.length_append, List.getLast?_concat] at hnext
        exact hnext

theorem Inv.ctxDone (h : Inv ctxErr acts s) (hstep : s.step ctxErr .ctxDone = some s') :
    Inv ctxErr (acts ++ [.ctxDone]) s' := by
  obtain ⟨i, lastErr, hloop, hdone, -⟩ := step_ctxDone hstep
  have hprogress := h.progress
  rw [hloop] at hprogress
  cases hprogress with
  | waiting _ hopen _ _ =>
    rw [hopen] at hdone
    cases hdone

/-- Both tasks have sent. -/
theorem Inv.exists_pair (h : Inv ctxErr acts s) (hlength : 2 ≤ (sentBy acts).length) :
    ∃ first last firstResult lastResult, sentBy acts = [first, last] ∧
      fetchedBy acts first = some firstResult ∧ fetchedBy acts last = some lastResult ∧
        sentResults acts = [firstResult, lastResult] := by
  obtain ⟨first, last, hboth⟩ := eq_pair h.nodup hlength
  obtain ⟨firstResult, hfirst⟩ := Option.isSome_iff_exists.mp
    (h.isSome first (by rw [hboth]; exact List.mem_cons_self))
  obtain ⟨lastResult, hlast⟩ := Option.isSome_iff_exists.mp
    (h.isSome last (by rw [hboth]; exact List.mem_cons_of_mem _ (List.mem_singleton_self _)))
  refine ⟨first, last, firstResult, lastResult, hboth, hfirst, hlast, ?_⟩
  rw [sentResults, hboth, List.filterMap_cons_some hfirst, List.filterMap_cons_some hlast]
  rfl

theorem Inv.exhausted (h : Inv ctxErr acts s) (hstep : s.step ctxErr .exhausted = some s') :
    Inv ctxErr (acts ++ [.exhausted]) s' := by
  obtain ⟨i, lastErr, hloop, hi, rfl⟩ := step_exhausted hstep
  have hsent : sentBy (acts ++ [.exhausted]) = sentBy acts := by
    rw [sentBy_append]
    exact List.append_nil _
  have hprogress := h.progress
  rw [hloop] at hprogress
  refine ⟨h.known_append (fun _ ↦ rfl) rfl fun _ ↦ rfl, hsent ▸ h.nodup, hsent ▸ h.room, ?_⟩
  cases hprogress with
  | waiting received hdone hresults hcompletes =>
    have hlength : received.length + s.resultChan.length ≤ (sentBy acts).length := by
      have hle : (sentResults acts).length ≤ (sentBy acts).length := List.length_filterMap_le _ _
      rwa [hresults, List.length_append, List.length_map] at hle
    obtain ⟨first, last, firstResult, lastResult, hboth, hfirst, hlast, hpair⟩ :=
      h.exists_pair (by omega)
    rw [hpair] at hresults
    match received, hi, hresults with
    | [firstErr, err], _, hresults =>
      obtain ⟨rfl, hrest⟩ := List.cons.inj hresults
      obtain ⟨rfl, -⟩ := List.cons.inj hrest
      exact .failed first last (hsent.trans hboth) ((hcompletes first _ hfirst).append _)
        ((hcompletes last _ hlast).append _)
    | _ :: _ :: _ :: _, _, hresults =>
      have hlengths := congrArg List.length hresults
      simp at hlengths

theorem Inv.step (h : Inv ctxErr acts s) (hrun : Call.run ctxErr {} acts = some s) {act : Action}
    (hparent : ∀ (_ : act = .cancelParent), False) (hstep : s.step ctxErr act = some s') :
    Inv ctxErr (acts ++ [act]) s' := by
  cases act with
  | fetched task result => exact h.fetched hrun hstep
  | send task => exact h.send hstep
  | drop task => exact h.drop hstep
  | receive => exact h.receive hstep
  | ctxDone => exact h.ctxDone hstep
  | exhausted => exact h.exhausted hstep
  | cancelParent => exact (hparent rfl).elim

/-- No operation of the run cancels the caller's context. -/
def ParentOpen (acts : List Action) : Prop := ∀ act ∈ acts, act ≠ .cancelParent

/-- Every run keeps the invariant. -/
theorem inv_of_run (hrun : Call.run ctxErr {} acts = some s) (hparent : ParentOpen acts) :
    Inv ctxErr acts s := by
  induction acts using List.reverseRecOn generalizing s with
  | nil =>
    obtain rfl : ({} : Call) = s := Option.some_inj.mp hrun
    exact .initial ctxErr
  | append_singleton acts act ih =>
    rw [run_append] at hrun
    obtain ⟨before, hbefore, hstep⟩ := Option.bind_eq_some_iff.mp hrun
    have hopen : ParentOpen acts := fun a ha ↦ hparent a (List.mem_append_left _ ha)
    have hact := hparent act (List.mem_append_right _ (List.mem_singleton_self _))
    exact (ih hbefore hopen).step hbefore hact hstep

/-! ## The call ends -/

/-- The operations a task still has to do. -/
def Phase.left : Phase → ℕ
  | .fetching => 2
  | .sending _ => 1
  | .sent => 0
  | .dropped => 0

/-- The operations the loop may still do. -/
def Loop.left : Loop → ℕ
  | .waiting i _ => 2 - i + 1
  | .returned _ => 0

/-- A bound for the operations that are left. -/
def Call.left (s : Call) : ℕ := (s.phase .src).left + (s.phase .alt).left + s.loop.left

theorem left_update {phase : Task → Phase} {task : Task} {new : Phase}
    (h : new.left < (phase task).left) :
    (Function.update phase task new .src).left + (Function.update phase task new .alt).left <
      (phase .src).left + (phase .alt).left := by
  cases task with
  | src =>
    rw [Function.update_self, Function.update_of_ne (by decide)]
    exact Nat.add_lt_add_right h _
  | alt =>
    rw [Function.update_self, Function.update_of_ne (by decide)]
    exact Nat.add_lt_add_left h _

/-- Every operation brings the call closer to its end. -/
theorem left_step {act : Action} (hact : act ≠ .cancelParent) (hstep : s.step ctxErr act = some s') :
    s'.left < s.left := by
  cases act with
  | fetched task result =>
    obtain ⟨hphase, rfl⟩ := step_fetched hstep
    exact Nat.add_lt_add_right (left_update (by rw [hphase]; exact Nat.lt_succ_self 1)) _
  | send task =>
    obtain ⟨result, hphase, -, rfl⟩ := step_send hstep
    exact Nat.add_lt_add_right (left_update (by rw [hphase]; exact Nat.one_pos)) _
  | drop task =>
    obtain ⟨result, hphase, -, rfl⟩ := step_drop hstep
    exact Nat.add_lt_add_right (left_update (by rw [hphase]; exact Nat.one_pos)) _
  | receive =>
    cases step_receive hstep with
    | ok hloop _ =>
      refine Nat.add_lt_add_left ?_ _
      rw [hloop]
      exact Nat.succ_pos _
    | @error i _ _ _ hi hloop _ =>
      refine Nat.add_lt_add_left ?_ _
      rw [hloop]
      show 2 - (i + 1) + 1 < 2 - i + 1
      omega
  | ctxDone =>
    obtain ⟨i, lastErr, hloop, -, rfl⟩ := step_ctxDone hstep
    refine Nat.add_lt_add_left ?_ _
    rw [hloop]
    exact Nat.succ_pos _
  | exhausted =>
    obtain ⟨i, lastErr, hloop, -, rfl⟩ := step_exhausted hstep
    refine Nat.add_lt_add_left ?_ _
    rw [hloop]
    exact Nat.succ_pos _
  | cancelParent => exact absurd rfl hact

theorem length_add_left_le (hrun : Call.run ctxErr {} acts = some s) (hparent : ParentOpen acts) :
    acts.length + s.left ≤ 7 := by
  induction acts using List.reverseRecOn generalizing s with
  | nil =>
    obtain rfl : ({} : Call) = s := Option.some_inj.mp hrun
    exact le_refl 7
  | append_singleton acts act ih =>
    rw [run_append] at hrun
    obtain ⟨before, hbefore, hstep⟩ := Option.bind_eq_some_iff.mp hrun
    have hle := ih hbefore fun a ha ↦ hparent a (List.mem_append_left _ ha)
    have hlt := left_step (hparent act (List.mem_append_right _ (List.mem_singleton_self _))) hstep
    rw [List.length_append, List.length_singleton]
    omega

/-- A task that sends finds room in the channel. -/
theorem Inv.isSome_send (h : Inv ctxErr acts s) {task : Task} {result : FetchResult}
    (hphase : s.phase task = .sending result) : (s.step ctxErr (.send task)).isSome := by
  have hroom : s.resultChan.length < 2 := by
    by_contra hfull
    obtain ⟨first, last, hboth⟩ := eq_pair h.nodup ((not_lt.mp hfull).trans h.room)
    have hknown := h.known task
    rw [hphase] at hknown
    cases hknown with
    | sending _ hnot =>
      have hnodup := h.nodup
      rw [hboth] at hnodup hnot
      exact hnot (mem_pair hnodup task)
  rw [Call.step, hphase]
  dsimp only
  rw [if_pos hroom]
  rfl

/-- The operations but for the return of a fetch, and the caller's. -/
def Action.Own : Action → Prop
  | .fetched _ _ => False
  | .cancelParent => False
  | _ => True

/-- A call that waits can go on once a fetch has succeeded, or both have returned. -/
theorem Inv.exists_step (h : Inv ctxErr acts s) (hwaits : s.Waits)
    (hready : (∃ task out, fetchedBy acts task = some (.ok out)) ∨
      ∀ task, (fetchedBy acts task).isSome) :
    ∃ act : Action, act.Own ∧ (s.step ctxErr act).isSome := by
  by_cases hsending : ∃ task result, s.phase task = .sending result
  · obtain ⟨task, result, hphase⟩ := hsending
    exact ⟨.send task, trivial, h.isSome_send hphase⟩
  push Not at hsending
  obtain ⟨i, lastErr, hloop⟩ := hwaits
  have hprogress := h.progress
  rw [hloop] at hprogress
  cases hprogress with
  | waiting received hdone hresults hcompletes =>
    -- What has been fetched has been sent, because no task is at its select or has left it.
    have hsent {task : Task} (hsome : (fetchedBy acts task).isSome) : task ∈ sentBy acts := by
      have hknown := h.known task
      generalize hphase : s.phase task = phase at *
      cases hknown with
      | fetching hnone _ =>
        rw [hnone] at hsome
        cases hsome
      | sending _ _ => exact absurd hphase (hsending task _)
      | sent _ hmem => exact hmem
      | dropped _ _ hclosed =>
        rw [hdone] at hclosed
        cases hclosed
    have hlength : received.length + s.resultChan.length ≤ 2 := by
      have hle : (sentResults acts).length ≤ (sentBy acts).length := List.length_filterMap_le _ _
      rw [hresults, List.length_append, List.length_map] at hle
      by_contra hlong
      obtain ⟨first, last, hboth⟩ := eq_pair h.nodup (by omega)
      rw [hboth] at hle
      exact hlong hle
    cases hchan : s.resultChan with
    | cons result rest =>
      rw [hchan, List.length_cons] at hlength
      have hi : received.length < 2 := by omega
      refine ⟨.receive, trivial, ?_⟩
      rw [Call.step, hloop, hchan]
      dsimp only
      rw [if_pos hi]
      cases result with
      | ok out => rfl
      | error err => rfl
    | nil =>
      rw [hchan, List.append_nil] at hresults
      by_cases hi : received.length < 2
      · exfalso
        rcases hready with ⟨task, out, hout⟩ | hboth
        · have hmem : .ok out ∈ sentResults acts :=
            List.mem_filterMap.mpr ⟨task, hsent (by rw [hout]; rfl), hout⟩
          rw [hresults] at hmem
          obtain ⟨err, -, herr⟩ := List.mem_map.mp hmem
          cases herr
        · have hsubset : [Task.src, .alt] ⊆ sentBy acts := fun task _ ↦ hsent (hboth task)
          have htwo : 2 ≤ (sentBy acts).length :=
            (List.subperm_of_subset (by decide) hsubset).length_le
          obtain ⟨_, _, _, _, -, -, -, hpair⟩ := h.exists_pair htwo
          have hlengths := congrArg List.length (hpair.symm.trans hresults)
          rw [List.length_map] at hlengths
          exact absurd hi (by rw [← hlengths]; exact lt_irrefl 2)
      · refine ⟨.exhausted, trivial, ?_⟩
        rw [Call.step, hloop]
        dsimp only
        rw [if_neg hi]
        rfl

/-! ## Outcomes -/

/-- What a call has done, whatever the order of the operations was. -/
structure Outcome (ctxErr : GoError) (acts : List Action) (s : Call) : Prop where
  /-- It returns without an error if and only if a fetch has succeeded while it was waiting. -/
  ok_iff : ∀ result, s.loop = .returned result →
    ((∃ out, result = .ok out) ↔ ∃ task out, CompletesWaiting ctxErr acts task (.ok out))
  /-- The data and the flag are those of such a fetch. -/
  data : ∀ out, s.loop = .returned (.ok out) → ∃ task, CompletesWaiting ctxErr acts task (.ok out)
  /-- The error is the one that has been sent last, after another one. -/
  error : ∀ err, s.loop = .returned (.error err) → ∃ first last firstErr,
    sentBy acts = [first, last] ∧ CompletesWaiting ctxErr acts first (.error firstErr) ∧
      CompletesWaiting ctxErr acts last (.error err)
  /-- As long as it waits, no result is dropped, and what has been sent is received or in the
  channel. -/
  notLost : s.Waits → (∀ task, s.phase task ≠ .dropped) ∧
    ∃ received : List GoError, sentResults acts = received.map .error ++ s.resultChan
  /-- A task can always send. -/
  notBlocked : ∀ task result, s.phase task = .sending result →
    (s.step ctxErr (.send task)).isSome
  /-- It does return, once a fetch has succeeded or both have returned. -/
  returns : ((∃ task out, CompletesWaiting ctxErr acts task (.ok out)) ∨
      ∀ task, (fetchedBy acts task).isSome) →
    (∀ act : Action, act.Own → s.step ctxErr act = none) → ∃ result, s.loop = .returned result
  /-- No run is longer. -/
  bounded : acts.length ≤ 7

/-- A task fetches once. -/
theorem CompletesWaiting.fetchedBy_eq {task : Task} {result : FetchResult}
    (h : CompletesWaiting ctxErr acts task result) (hrun : Call.run ctxErr {} acts = some s)
    (hparent : ParentOpen acts) : fetchedBy acts task = some result := by
  obtain ⟨pre, post, before, rfl, hbefore, -⟩ := h
  have hopen : ParentOpen pre := fun act hact ↦ hparent act (List.mem_append_left _ hact)
  rw [Call.run, List.foldlM_append] at hrun
  obtain ⟨before', hbefore', hrest⟩ := Option.bind_eq_some_iff.mp hrun
  obtain rfl : before = before' := Option.some_inj.mp (hbefore.symm.trans hbefore')
  rw [List.foldlM_cons] at hrest
  obtain ⟨after, hstep, -⟩ := Option.bind_eq_some_iff.mp hrest
  have hknown := (inv_of_run hbefore hopen).known task
  rw [(step_fetched hstep).1] at hknown
  have hnone : fetchedBy pre task = none := by
    cases hknown with
    | fetching hnone _ => exact hnone
  rw [fetchedBy, List.findSome?_append]
  rw [fetchedBy] at hnone
  rw [hnone]
  simp

/-- **Main result.** What a call of the concurrent mode does, for every order of the operations of its
tasks and its loop, as long as the caller's context is not cancelled. -/
theorem outcome_of_run (ctxErr : GoError) (acts : List Action) (s : Call)
    (hrun : Call.run ctxErr {} acts = some s) (hparent : ParentOpen acts) :
    Outcome ctxErr acts s := by
  have hinv := inv_of_run hrun hparent
  have hprogress := hinv.progress
  constructor
  · intro result hloop
    rw [hloop] at hprogress
    cases hprogress with
    | @succeeded out task hcompletes =>
      exact iff_of_true ⟨out, rfl⟩ ⟨task, out, hcompletes⟩
    | @failed firstErr err first last hsent hfirst hlast =>
      refine iff_of_false nofun ?_
      rintro ⟨task, out, hcompletes⟩
      have hout := hcompletes.fetchedBy_eq hrun hparent
      have hnodup := hinv.nodup
      rw [hsent] at hnodup
      rcases List.mem_cons.mp (mem_pair hnodup task) with rfl | hmem
      · exact nomatch hout.symm.trans (hfirst.fetchedBy_eq hrun hparent)
      · rw [List.mem_singleton.mp hmem] at hout
        exact nomatch hout.symm.trans (hlast.fetchedBy_eq hrun hparent)
  · intro out hloop
    rw [hloop] at hprogress
    cases hprogress with
    | succeeded task hcompletes => exact ⟨task, hcompletes⟩
  · intro err hloop
    rw [hloop] at hprogress
    cases hprogress with
    | @failed firstErr _ first last hsent hfirst hlast =>
      exact ⟨first, last, firstErr, hsent, hfirst, hlast⟩
  · rintro ⟨i, lastErr, hloop⟩
    rw [hloop] at hprogress
    cases hprogress with
    | waiting received hdone hresults _ =>
      refine ⟨fun task hphase ↦ ?_, received, hresults⟩
      have hknown := hinv.known task
      rw [hphase] at hknown
      cases hknown with
      | dropped _ _ hclosed =>
        rw [hdone] at hclosed
        cases hclosed
  · exact fun task result ↦ hinv.isSome_send
  · intro hready hstuck
    have hfetched : (∃ task out, fetchedBy acts task = some (.ok out)) ∨
        ∀ task, (fetchedBy acts task).isSome := by
      refine hready.imp_left ?_
      rintro ⟨task, out, hcompletes⟩
      exact ⟨task, out, hcompletes.fetchedBy_eq hrun hparent⟩
    generalize hloop : s.loop = loop
    cases loop with
    | returned result => exact ⟨result, rfl⟩
    | waiting i lastErr =>
      obtain ⟨act, hown, hsome⟩ := hinv.exists_step ⟨i, lastErr, hloop⟩ hfetched
      rw [hstuck act hown] at hsome
      cases hsome
  · have hle := length_add_left_le hrun hparent
    omega

/-- Two errors. -/
def refused : GoError := ⟨some .upstreamStatus, lit "refused"⟩

def unreachable : GoError := ⟨some .upstreamStatus, lit "unreachable"⟩

/-- The second fetch fails after the first one, but its task sends first. -/
def overtaken : List Action :=
  [.fetched .src (.error refused), .fetched .alt (.error unreachable), .send .alt, .receive,
    .send .src, .receive, .exhausted]

/-- The call after these operations. -/
theorem run_overtaken :
    ∃ s, Call.run refused {} overtaken = some s ∧ s.loop = .returned (.error refused) :=
  ⟨_, rfl, rfl⟩

theorem parentOpen_overtaken : ParentOpen overtaken := by
  intro act hact
  fin_cases hact <;> rintro ⟨⟩

theorem outcome_of_run_overtaken :
    ∃ s, Call.run refused {} overtaken = some s ∧ Outcome refused overtaken s := by
  obtain ⟨s, hrun, -⟩ := run_overtaken
  exact ⟨s, hrun, outcome_of_run refused overtaken s hrun parentOpen_overtaken⟩

/-- The task that has fetched last. -/
def lastFetched (acts : List Action) : Option Task :=
  (acts.filterMap fun
    | .fetched task _ => some task
    | _ => none).getLast?

/-- The error that is returned need not be that of the fetch that has ended last. -/
theorem not_error_of_lastFetched : ¬ ∀ (ctxErr : GoError) (acts : List Action) (s : Call),
    Call.run ctxErr {} acts = some s → ParentOpen acts → ∀ err, s.loop = .returned (.error err) →
      ∃ task, lastFetched acts = some task ∧ fetchedBy acts task = some (.error err) := by
  intro h
  obtain ⟨s, hrun, hloop⟩ := run_overtaken
  obtain ⟨task, htask, herr⟩ := h refused overtaken s hrun parentOpen_overtaken refused hloop
  cases htask
  exact absurd herr (by decide)

end GoMesi.FetchMode
