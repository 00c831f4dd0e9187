import GoMesi.Interleaving.Prog

/-!
# Interleaved runs

One step of a program is one operation of one active job, a worker picking up the next job in
line, or a parallel node going on because all its jobs have ended. A run is a list of such steps
and of steps the world makes by itself, so every interleaving of the jobs is a run.

The operations of a run are recorded as events, together with the state they were asked in.
Restricting attention to the runs all of whose events satisfy a condition is how an assumption on
the environment, or the absence of a data race, is expressed.

## Termination

`Prog.acc_next` says that no program has an infinite run of its own steps, whatever the world
answers. A parallel node needs a product argument: one job moves at a time, so the family of jobs
decreases in one coordinate (`acc_pi`), and the number of jobs in line decreases when one is
picked up.
-/

namespace Interleaving

variable {S : Signature} {ρ σ τ α β : Type}

/-- One operation of a run: the state it was asked in, and its answer. -/
structure Event (S : Signature) (σ : Type) where
  /-- The state before the operation. -/
  pre : σ
  /-- The operation. -/
  op : S.Op
  /-- The answer. -/
  res : S.Res op

/-- The jobs that occupy a worker. -/
def Prog.busy {n : ℕ} (active : Fin n → Bool) (job : Fin n → Prog S ρ ρ) : Finset (Fin n) :=
  Finset.univ.filter fun i ↦ active i = true ∧ (job i).value? = none

/-- One step of a program over a world whose operations behave as `sem` says. Jobs are picked up
in order, and only while a worker is free. -/
inductive Step (sem : (o : S.Op) → σ → S.Res o → σ → Prop) :
    {α : Type} → Prog S ρ α → σ → Option (Event S σ) → Prog S ρ α → σ → Prop where
  | op {α : Type} {o : S.Op} {k : S.Res o → Prog S ρ α} {s s' : σ} {r : S.Res o}
      (h : sem o s r s') : Step sem (.op o k) s (some ⟨s, o, r⟩) (k r) s'
  | start {α : Type} {n w : ℕ} {active : Fin n → Bool} {job : Fin n → Prog S ρ ρ}
      {k : (Fin n → ρ) → Prog S ρ α} {s : σ} (i : Fin n) (hi : active i = false)
      (hline : ∀ j < i, active j = true) (hw : (Prog.busy active job).card < w) :
      Step sem (.par w active job k) s none (.par w (Function.update active i true) job k) s
  | child {α : Type} {n w : ℕ} {active : Fin n → Bool} {job : Fin n → Prog S ρ ρ}
      {k : (Fin n → ρ) → Prog S ρ α} {s s' : σ} {e : Option (Event S σ)} {p : Prog S ρ ρ}
      (i : Fin n) (hi : active i = true) (h : Step sem (job i) s e p s') :
      Step sem (.par w active job k) s e (.par w active (Function.update job i p) k) s'
  | join {α : Type} {n w : ℕ} {active : Fin n → Bool} {job : Fin n → Prog S ρ ρ}
      {k : (Fin n → ρ) → Prog S ρ α} {s : σ} {rs : Fin n → ρ} (hact : ∀ i, active i = true)
      (hret : ∀ i, job i = .ret (rs i)) : Step sem (.par w active job k) s none (k rs) s

/-- A run, with its events in order. Between two steps of the program the world may move by
itself, as `env` allows. -/
inductive Run (sem : (o : S.Op) → σ → S.Res o → σ → Prop) (env : σ → σ → Prop) :
    Prog S ρ α → σ → List (Event S σ) → Prog S ρ α → σ → Prop where
  | refl {p : Prog S ρ α} {s : σ} : Run sem env p s [] p s
  | env {p q : Prog S ρ α} {s s' t : σ} {tr : List (Event S σ)} (h : env s s')
      (hr : Run sem env p s' tr q t) : Run sem env p s tr q t
  | step {p p' q : Prog S ρ α} {s s' t : σ} {e : Option (Event S σ)} {tr : List (Event S σ)}
      (h : Step sem p s e p' s') (hr : Run sem env p' s' tr q t) :
      Run sem env p s (e.toList ++ tr) q t

variable {sem : (o : S.Op) → σ → S.Res o → σ → Prop} {env : σ → σ → Prop}

theorem Run.trans {p q u : Prog S ρ α} {s t v : σ} {tr tr' : List (Event S σ)}
    (h : Run sem env p s tr q t) (h' : Run sem env q t tr' u v) :
    Run sem env p s (tr ++ tr') u v := by
  induction h with
  | refl => exact h'
  | env he _ ih => exact .env he (ih h')
  | step hs _ ih =>
    rw [List.append_assoc]
    exact .step hs (ih h')

theorem Run.of_env {p q : Prog S ρ α} {s s' t : σ} {tr : List (Event S σ)}
    (h : Relation.ReflTransGen env s s') (hr : Run sem env p s' tr q t) :
    Run sem env p s tr q t := by
  induction h using Relation.ReflTransGen.head_induction_on with
  | refl => exact hr
  | head h _ ih => exact .env h ih

/-- What every step keeps is kept by a run. -/
theorem Run.keeps {P : Prog S ρ α → Prop}
    (hstep : ∀ p s e p' s', Step sem p s e p' s' → P p → P p') {p q : Prog S ρ α} {s t : σ}
    {tr : List (Event S σ)} (h : Run sem env p s tr q t) (hp : P p) : P q := by
  induction h with
  | refl => exact hp
  | env _ _ ih => exact ih hp
  | step hs _ ih => exact ih (hstep _ _ _ _ _ hs hp)

/-- An operation that can always be done, changes nothing, and whose answer does not matter, can be
left out. -/
theorem Run.op_const_iff {o : S.Op} {p : Prog S ρ α} {s : σ} {a : α}
    (hcan : ∀ s, ∃ r, sem o s r s) (hkeep : ∀ s r s', sem o s r s' → s' = s) :
    (∃ tr t, Run sem env (.op o fun _ ↦ p) s tr (.ret a) t) ↔
      ∃ tr t, Run sem env p s tr (.ret a) t := by
  constructor
  · rintro ⟨tr, t, h⟩
    generalize hq : Prog.op o (fun _ ↦ p) = q, hret : Prog.ret a = out at h
    induction h with
    | refl => cases hq.trans hret.symm
    | env he _ ih =>
      obtain ⟨tr, t, h⟩ := ih hq hret
      exact ⟨tr, t, .env he h⟩
    | step hs hr =>
      subst hq hret
      cases hs with
      | op hsem => exact ⟨_, _, hkeep _ _ _ hsem ▸ hr⟩
  · rintro ⟨tr, t, h⟩
    obtain ⟨r, hr⟩ := hcan s
    exact ⟨_, t, .step (.op hr) h⟩

/-! ## What every step keeps -/

/-- A property of the world that every operation keeps is kept by every step. -/
theorem Step.invariant {I : σ → Prop} (hop : ∀ o s r s', sem o s r s' → I s → I s')
    {p p' : Prog S ρ α} {s s' : σ} {e : Option (Event S σ)} (h : Step sem p s e p' s')
    (hs : I s) : I s' := by
  induction h with
  | op h => exact hop _ _ _ _ h hs
  | start => exact hs
  | child _ _ _ ih => exact ih hs
  | join => exact hs

/-- The event of a step is an operation of the world, and a step without one leaves the world
as it is. -/
theorem Step.world {p p' : Prog S ρ α} {s s' : σ} {e : Option (Event S σ)}
    (h : Step sem p s e p' s') :
    (e = none ∧ s' = s) ∨ ∃ ev : Event S σ, e = some ev ∧ ev.pre = s ∧ sem ev.op s ev.res s' := by
  induction h with
  | op h => exact .inr ⟨_, rfl, rfl, h⟩
  | start => exact .inl ⟨rfl, rfl⟩
  | child _ _ _ ih => exact ih
  | join => exact .inl ⟨rfl, rfl⟩

/-! ## What a program can ask for -/

/-- The steps of an active job are steps of the parallel node it is in. -/
theorem Run.child {n w : ℕ} {active : Fin n → Bool} {job : Fin n → Prog S ρ ρ}
    {k : (Fin n → ρ) → Prog S ρ α} {i : Fin n} (hi : active i = true) {p q : Prog S ρ ρ} {s t : σ}
    {tr : List (Event S σ)} (h : Run sem env p s tr q t) (hp : job i = p) :
    Run sem env (.par w active job k) s tr (.par w active (Function.update job i q) k) t := by
  induction h generalizing job with
  | refl =>
    rw [Function.update_eq_self_iff.mpr hp.symm]
    exact .refl
  | env he _ ih => exact .env he (ih hp)
  | @step p p' q s s' t e tr hs _ ih =>
    subst hp
    have hself : Function.update job i p' i = p' := Function.update_self ..
    have := ih hself
    rw [Function.update_idem] at this
    exact .step (.child i hi hs) this

/-- Answered suitably, and with the first job of each family of jobs only, the program asks for an
operation in `O`. -/
inductive Prog.Asks (O : S.Op → Prop) : {α : Type} → Prog S ρ α → Prop where
  | here {α : Type} {o : S.Op} {k : S.Res o → Prog S ρ α} (r : S.Res o) (h : O o) : Asks O (.op o k)
  | op {α : Type} {o : S.Op} {k : S.Res o → Prog S ρ α} (r : S.Res o) (h : Asks O (k r)) :
      Asks O (.op o k)
  | job {α : Type} {n w : ℕ} {job : Fin n → Prog S ρ ρ} {k : (Fin n → ρ) → Prog S ρ α}
      (hn : 0 < n) (hw : 0 < w) (h : Asks O (job ⟨0, hn⟩)) : Asks O (.par w (fun _ ↦ false) job k)

theorem Prog.Asks.bind {O : S.Op → Prop} {p : Prog S ρ α} (h : p.Asks O) (f : α → Prog S ρ β) :
    (p.bind f).Asks O := by
  induction h with
  | here r ho => exact .here r ho
  | op r _ ih => exact .op r (ih f)
  | job hn hw h _ => exact .job hn hw h

/-- In a world that gives every answer there is a run in which the program asks for it. -/
theorem Prog.Asks.exists_run {O : S.Op → Prop} {p : Prog S ρ α} (h : p.Asks O) :
    ∃ tr q, Run (fun _ _ _ _ ↦ True) (fun _ _ ↦ False) p () tr q () ∧ ∃ ev ∈ tr, O ev.op := by
  induction h with
  | here r ho => exact ⟨_, _, .step (.op (r := r) trivial) .refl, _, List.mem_singleton_self _, ho⟩
  | op r _ ih =>
    obtain ⟨tr, q, hrun, ev, hev, ho⟩ := ih
    exact ⟨_, q, .step (.op (r := r) trivial) hrun, ev, List.mem_append_right _ hev, ho⟩
  | @job α n w job k hn hw _ ih =>
    obtain ⟨tr, q, hrun, ev, hev, ho⟩ := ih
    have hbusy : Prog.busy (fun _ ↦ false) job = ∅ :=
      Finset.filter_eq_empty_iff.mpr fun _ _ h ↦ by simp at h
    have hstart : Step (fun _ _ _ _ ↦ True) (.par w (fun _ ↦ false) job k) () none
        (.par w (Function.update (fun _ ↦ false) ⟨0, hn⟩ true) job k) () :=
      .start ⟨0, hn⟩ rfl (fun j hj ↦ absurd hj (Nat.not_lt_zero _))
        (by rw [hbusy, Finset.card_empty]; exact hw)
    exact ⟨_, _, .step hstart (hrun.child (Function.update_self ..) rfl), ev, hev, ho⟩

/-! ## Restricting and projecting the world -/

/-- A step whose event satisfies `C` is a step over the world in which only such operations are
possible. -/
theorem Step.restrict {C : Event S σ → Prop} {p p' : Prog S ρ α} {s s' : σ}
    {e : Option (Event S σ)} (h : Step sem p s e p' s') (hC : ∀ ev ∈ e, C ev) :
    Step (fun o s r s' ↦ sem o s r s' ∧ C ⟨s, o, r⟩) p s e p' s' := by
  induction h with
  | op h => exact .op ⟨h, hC _ rfl⟩
  | start i hi hline hw => exact .start i hi hline hw
  | child i hi _ ih => exact .child i hi (ih hC)
  | join hact hret => exact .join hact hret

theorem Run.restrict {C : Event S σ → Prop} {p q : Prog S ρ α} {s t : σ}
    {tr : List (Event S σ)} (h : Run sem env p s tr q t) (hC : ∀ ev ∈ tr, C ev) :
    Run (fun o s r s' ↦ sem o s r s' ∧ C ⟨s, o, r⟩) env p s tr q t := by
  induction h with
  | refl => exact .refl
  | env he _ ih => exact .env he (ih hC)
  | step hs _ ih =>
    refine .step (hs.restrict fun ev hev ↦ hC ev ?_) (ih fun ev hev ↦ hC ev ?_)
    · exact List.mem_append_left _ (by simpa using hev)
    · exact List.mem_append_right _ hev

/-- The part of the world that `f` keeps moves along with the world. -/
theorem Step.project {sem' : (o : S.Op) → τ → S.Res o → τ → Prop} (f : σ → τ)
    (hsem : ∀ o s r s', sem o s r s' → sem' o (f s) r (f s')) {p p' : Prog S ρ α} {s s' : σ}
    {e : Option (Event S σ)} (h : Step sem p s e p' s') :
    ∃ e', Step sem' p (f s) e' p' (f s') := by
  induction h with
  | op h => exact ⟨_, .op (hsem _ _ _ _ h)⟩
  | start i hi hline hw => exact ⟨_, .start i hi hline hw⟩
  | child i hi _ ih =>
    obtain ⟨e', he'⟩ := ih
    exact ⟨e', .child i hi he'⟩
  | join hact hret => exact ⟨_, .join hact hret⟩

theorem Run.project {sem' : (o : S.Op) → τ → S.Res o → τ → Prop} (f : σ → τ)
    (hsem : ∀ o s r s', sem o s r s' → sem' o (f s) r (f s'))
    (henv : ∀ s s', env s s' → f s' = f s) {p q : Prog S ρ α} {s t : σ}
    {tr : List (Event S σ)} (h : Run sem env p s tr q t) :
    ∃ tr', Run sem' (fun _ _ ↦ False) p (f s) tr' q (f t) := by
  induction h with
  | refl => exact ⟨[], .refl⟩
  | env he _ ih =>
    obtain ⟨tr', ih⟩ := ih
    exact ⟨tr', henv _ _ he ▸ ih⟩
  | step hs _ ih =>
    obtain ⟨tr', ih⟩ := ih
    obtain ⟨e', he'⟩ := hs.project f hsem
    exact ⟨_, .step he' ih⟩

/-! ## Termination -/

/-- `p'` comes one step after `p` in some world. -/
def Prog.Next (p' p : Prog S ρ α) : Prop :=
  ∃ e, Step (σ := Unit) (fun _ _ _ _ ↦ True) p () e p' ()

theorem Step.next {p p' : Prog S ρ α} {s s' : σ} {e : Option (Event S σ)}
    (h : Step sem p s e p' s') : Prog.Next p' p :=
  h.project (fun _ ↦ ()) fun _ _ _ _ _ ↦ trivial

/-- If every entry of a finite family is accessible, so is the family under moves that make one
entry smaller. -/
theorem acc_pi {X : Type*} {r : X → X → Prop} {n : ℕ} {x : Fin n → X} (hx : ∀ i, Acc r (x i)) :
    Acc (fun y x : Fin n → X ↦ ∃ i p, r p (x i) ∧ y = Function.update x i p) x := by
  have hwf : WellFounded fun a b : {a : X // Acc r a} ↦ r a.1 b.1 :=
    ⟨fun a ↦ InvImage.accessible Subtype.val a.2⟩
  have hlex := Pi.Lex.wellFounded (ι := Fin n) (· < ·) fun _ ↦ hwf
  suffices ∀ z : Fin n → {a : X // Acc r a},
      Acc (fun y x : Fin n → X ↦ ∃ i p, r p (x i) ∧ y = Function.update x i p) fun i ↦ (z i).1 from
    this fun i ↦ ⟨x i, hx i⟩
  intro z
  induction z using hlex.induction with
  | _ z ih =>
    refine .intro _ ?_
    rintro y ⟨i, p, hp, rfl⟩
    let z' := Function.update z i ⟨p, (z i).2.inv hp⟩
    have hz' : (fun j ↦ (z' j).1) = Function.update (fun j ↦ (z j).1) i p := by
      funext j
      by_cases hj : j = i
      · subst hj
        simp [z']
      · simp [z', hj]
    rw [← hz']
    refine ih z' ⟨i, fun j hj ↦ ?_, ?_⟩
    · simp [z', hj.ne]
    · simpa [z'] using hp

private theorem card_inactive_update {n : ℕ} {active : Fin n → Bool} {i : Fin n}
    (hi : active i = false) :
    (Finset.univ.filter fun j ↦ Function.update active i true j = false).card
      < (Finset.univ.filter fun j ↦ active j = false).card := by
  refine Finset.card_lt_card ⟨fun j hj ↦ ?_, fun hsub ↦ ?_⟩
  · rw [Finset.mem_filter] at hj ⊢
    by_cases hji : j = i
    · exact ⟨hj.1, hji ▸ hi⟩
    · simpa [hji] using hj
  · have := hsub (Finset.mem_filter.mpr ⟨Finset.mem_univ i, hi⟩)
    simp at this

/-- **Termination.** No program has an infinite run of its own steps. -/
theorem Prog.acc_next (p : Prog S ρ α) : Acc Prog.Next p := by
  induction p with
  | ret a => exact .intro _ fun _ ⟨_, h⟩ ↦ nomatch h
  | op o k ih =>
    refine .intro _ ?_
    rintro _ ⟨_, h⟩
    cases h with
    | op => exact ih _
  | @par α n w active job k ihjob ihk =>
    -- the jobs in line decrease, or none is picked up and one active job moves
    suffices ∀ m, ∀ job : Fin n → Prog S ρ ρ, (∀ i, Acc Prog.Next (job i)) → ∀ active,
        (Finset.univ.filter fun j ↦ active j = false).card = m →
          Acc Prog.Next (par w active job k) from this _ job ihjob active rfl
    intro m
    induction m using Nat.strong_induction_on with
    | _ m ihm =>
      intro job hjob
      induction acc_pi hjob with
      | intro job _ ihpi =>
        intro active hm
        refine .intro _ ?_
        rintro _ ⟨_, h⟩
        cases h with
        | start i hi hline hw =>
          exact ihm _ (hm ▸ card_inactive_update hi) job hjob _ rfl
        | @child _ _ _ _ _ _ _ _ _ p i hi h =>
          have hnext : Prog.Next p (job i) := ⟨_, h⟩
          refine ihpi _ ⟨i, p, hnext, rfl⟩ (fun j ↦ ?_) active hm
          by_cases hj : j = i
          · subst hj
            simpa using (hjob j).inv hnext
          · simpa [hj] using hjob j
        | join hact hret => exact ihk _

/-! ## Executing a schedule

A schedule names at each step the job to move, as the path from the root of the program to it, or a
move of the world, so that a particular interleaving can be computed. -/

/-- The values of a finite family of programs, if all of them have ended. -/
def Prog.values? : {n : ℕ} → (Fin n → Prog S ρ ρ) → Option (Fin n → ρ)
  | 0, _ => some Fin.elim0
  | _ + 1, job =>
    match (job 0).value?, values? fun i ↦ job i.succ with
    | some a, some rs => some (Fin.cons a rs)
    | _, _ => none

theorem Prog.values?_eq_some {n : ℕ} {job : Fin n → Prog S ρ ρ} {rs : Fin n → ρ}
    (h : values? job = some rs) (i : Fin n) : job i = .ret (rs i) := by
  induction n with
  | zero => exact i.elim0
  | succ n ih =>
    simp only [values?] at h
    split at h
    · rename_i a rs' ha hrs
      obtain rfl : Fin.cons a rs' = rs := by simpa using h
      cases i using Fin.cases with
      | zero => exact value?_eq_some_iff.mp ha
      | succ i => exact ih hrs i
    · simp at h

/-- Move the job at the end of a path, with the answers `ans`: its event, what is left of the
program, and the state. -/
def Prog.stepAt (ans : (o : S.Op) → σ → Option (S.Res o × σ)) :
    List ℕ → {α : Type} → Prog S ρ α → σ → Option (Option (Event S σ) × Prog S ρ α × σ)
  | [], _, .op o k, s => (ans o s).map fun a ↦ (some ⟨s, o, a.1⟩, k a.1, a.2)
  | [], _, .par _ active job k, s =>
    if ∀ i, active i = true then (values? job).map fun rs ↦ (none, k rs, s) else none
  | m :: path, _, .par (n := n) w active job k, s =>
    if hm : m < n then
      if active ⟨m, hm⟩ = true then
        (stepAt ans path (job ⟨m, hm⟩) s).map fun a ↦
          (a.1, .par w active (Function.update job ⟨m, hm⟩ a.2.1) k, a.2.2)
      else if (∀ j < (⟨m, hm⟩ : Fin n), active j = true) ∧ (busy active job).card < w then
        some (none, .par w (Function.update active ⟨m, hm⟩ true) job k, s)
      else none
    else none
  | _, _, _, _ => none

theorem Prog.stepAt_sound {ans : (o : S.Op) → σ → Option (S.Res o × σ)}
    (hans : ∀ o s r s', ans o s = some (r, s') → sem o s r s') {path : List ℕ}
    {p p' : Prog S ρ α} {s s' : σ} {e : Option (Event S σ)}
    (h : p.stepAt ans path s = some (e, p', s')) : Step sem p s e p' s' := by
  induction path generalizing α with
  | nil =>
    cases p with
    | ret a => simp [stepAt] at h
    | op o k =>
      obtain ⟨⟨r, t⟩, ha, heq⟩ := Option.map_eq_some_iff.mp h
      cases heq
      exact .op (hans _ _ _ _ ha)
    | par w active job k =>
      simp only [stepAt] at h
      split_ifs at h with hact
      obtain ⟨rs, hrs, heq⟩ := Option.map_eq_some_iff.mp h
      cases heq
      exact .join hact (values?_eq_some hrs)
  | cons m path ih =>
    cases p with
    | ret a => simp [stepAt] at h
    | op o k => simp [stepAt] at h
    | @par _ n w active job k =>
      simp only [stepAt] at h
      split_ifs at h with hm hact hfree
      · obtain ⟨⟨e', q, t⟩, hq, heq⟩ := Option.map_eq_some_iff.mp h
        cases heq
        exact .child _ hact (ih hq)
      · cases h
        exact .start _ (by simpa using hact) hfree.1 hfree.2

/-- One entry of a schedule. -/
inductive Move (L : Type)
  /-- The job at the end of a path. -/
  | job (path : List ℕ)
  /-- A move of the world by itself. -/
  | world (l : L)

/-- What has become of a program and its world, and the events on the way. -/
structure Outcome (S : Signature) (ρ σ α : Type) where
  trace : List (Event S σ)
  prog : Prog S ρ α
  state : σ

variable {L : Type}

/-- Execute a schedule. A move that is not possible is skipped. -/
def Prog.exec (ans : (o : S.Op) → σ → Option (S.Res o × σ)) (move : L → σ → Option σ) :
    List (Move L) → Prog S ρ α → σ → Outcome S ρ σ α
  | [], p, s => ⟨[], p, s⟩
  | .job path :: rest, p, s =>
    match p.stepAt ans path s with
    | some (e, p', s') =>
      let out := exec ans move rest p' s'
      { out with trace := e.toList ++ out.trace }
    | none => exec ans move rest p s
  | .world l :: rest, p, s =>
    match move l s with
    | some s' => exec ans move rest p s'
    | none => exec ans move rest p s

/-- **Schedules are runs.** -/
theorem Prog.exec_run {ans : (o : S.Op) → σ → Option (S.Res o × σ)} {move : L → σ → Option σ}
    (hans : ∀ o s r s', ans o s = some (r, s') → sem o s r s')
    (hmove : ∀ l s s', move l s = some s' → env s s') (sched : List (Move L)) (p : Prog S ρ α)
    (s : σ) :
    Run sem env p s (p.exec ans move sched s).trace (p.exec ans move sched s).prog
      (p.exec ans move sched s).state := by
  induction sched generalizing p s with
  | nil => exact .refl
  | cons m rest ih =>
    cases m with
    | job path =>
      simp only [exec]
      split
      · rename_i e p' s' h
        exact .step (stepAt_sound hans h) (ih p' s')
      · exact ih p s
    | world l =>
      simp only [exec]
      split
      · rename_i s' h
        exact .env (hmove _ _ _ h) (ih p s')
      · exact ih p s

end Interleaving
