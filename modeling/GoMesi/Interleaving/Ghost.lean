import GoMesi.Interleaving.Run

/-!
# Thread-local reasoning about interleaved runs

A ghost state follows one thread of a program through the answers it receives: the last clock
reading it made, the bindings it has seen. `Prog.Walk` is the weakest precondition of a program
for such a ghost state, computed along the tree. It demands that the ghost state permits every
operation the thread asks for, whatever the answers were.

`Run.ghost` takes the result to interleaved runs. The ghost state of a thread says something true
about the world (`Tracks.own`), and goes on being true while other threads run
(`Tracks.stable`). A thread that has siblings, or is one, has a ghost state that is `shared`; only
such threads have to keep what the others know.
-/

namespace Interleaving

variable {S : Signature} {G ρ σ α β : Type}

/-- A ghost state for each thread. -/
structure Ghost (S : Signature) (G : Type) where
  /-- The operations a thread in a given ghost state may ask for. -/
  ok : G → S.Op → Prop
  /-- The ghost states after an answer. -/
  next : G → (o : S.Op) → S.Res o → G → Prop
  /-- The ghost states the jobs of a parallel node with `w` workers may start with. -/
  fork : G → (w : ℕ) → {n : ℕ} → (Fin n → G) → Prop

/-- Whatever the world answers, the program asks only for permitted operations and ends in a
ghost state and with a value that satisfy `Q`. -/
def Prog.Walk (γ : Ghost S G) : {α : Type} → Prog S ρ α → G → (G → α → Prop) → Prop
  | _, .ret a, g, Q => Q g a
  | _, .op o k, g, Q => γ.ok g o ∧ ∀ r g', γ.next g o r g' → (k r).Walk γ g' Q
  | _, .par (n := n) w _ job k, g, Q =>
    ∃ gs : Fin n → G, γ.fork g w gs ∧ (∀ i, (job i).Walk γ (gs i) fun _ _ ↦ True) ∧
      ∀ rs, (k rs).Walk γ g Q

variable {γ : Ghost S G}

theorem Prog.Walk.mono {p : Prog S ρ α} {g : G} {Q Q' : G → α → Prop} (hp : p.Walk γ g Q)
    (hQ : ∀ g a, Q g a → Q' g a) : p.Walk γ g Q' := by
  induction p generalizing g with
  | ret a => exact hQ _ _ hp
  | op o k ih => exact ⟨hp.1, fun r g' hg' ↦ ih r (hp.2 r g' hg') hQ⟩
  | par w active job k _ ih =>
    obtain ⟨gs, hfork, hjob, hk⟩ := hp
    exact ⟨gs, hfork, hjob, fun rs ↦ ih rs (hk rs) hQ⟩

theorem Prog.walk_bind {p : Prog S ρ α} {f : α → Prog S ρ β} {g : G} {Q : G → β → Prop} :
    (p.bind f).Walk γ g Q ↔ p.Walk γ g fun g' a ↦ (f a).Walk γ g' Q := by
  induction p generalizing g with
  | ret a => rfl
  | op o k ih => simp only [op_bind, Walk, ih]
  | par w active job k _ ih => simp only [par_bind, Walk, ih]

/-- A walk under one ghost state is a walk under another one that permits more and learns less. -/
theorem Prog.Walk.weaken {γ' : Ghost S G} (hok : ∀ g o, γ.ok g o → γ'.ok g o)
    (hnext : ∀ g o r g', γ.ok g o → γ'.next g o r g' → γ.next g o r g')
    (hfork : ∀ g w n (gs : Fin n → G), γ.fork g w gs → γ'.fork g w gs) {p : Prog S ρ α} {g : G}
    {Q : G → α → Prop} (hp : p.Walk γ g Q) : p.Walk γ' g Q := by
  induction p generalizing g with
  | ret a => exact hp
  | op o k ih => exact ⟨hok g o hp.1, fun r g' hg' ↦ ih r (hp.2 r g' (hnext g o r g' hp.1 hg'))⟩
  | par w active job k ihjob ih =>
    obtain ⟨gs, hgs, hjob, hk⟩ := hp
    exact ⟨gs, hfork g w _ gs hgs, fun i ↦ ihjob i (hjob i), fun rs ↦ ih rs (hk rs)⟩

/-- The ghost states of the threads tell the truth about the world. -/
structure Tracks (γ : Ghost S G) (sem : (o : S.Op) → σ → S.Res o → σ → Prop)
    (env : σ → σ → Prop) (R : G → σ → Prop) (shared : G → Prop) : Prop where
  /-- An operation takes its thread to a ghost state that is true afterwards. -/
  own : ∀ {g o s r s'}, R g s → γ.ok g o → sem o s r s' →
    ∃ g', γ.next g o r g' ∧ R g' s' ∧ (shared g → shared g')
  /-- An operation of a thread with siblings leaves true what any thread knows. -/
  stable : ∀ {g o s r s'}, shared g → R g s → γ.ok g o → sem o s r s' → ∀ g₁, R g₁ s → R g₁ s'
  /-- The world by itself leaves true what any thread knows. -/
  env : ∀ {s s'}, env s s' → ∀ g, R g s → R g s'
  /-- A job starts from something true. -/
  fork : ∀ {g s w n} {gs : Fin n → G}, R g s → γ.fork g w gs → ∀ i, R (gs i) s ∧ shared (gs i)

/-- Every thread of a running program has a true ghost state from which the rest of it walks. -/
def Prog.Live (γ : Ghost S G) (shared : G → Prop) (R : G → Prop) :
    {α : Type} → Prog S ρ α → Bool → (G → α → Prop) → Prop
  | _, .ret a, sh, Q => ∃ g, R g ∧ (sh = true → shared g) ∧ Q g a
  | _, .op o k, sh, Q => ∃ g, R g ∧ (sh = true → shared g) ∧ (Prog.op o k).Walk γ g Q
  | _, .par (n := n) w _ job k, sh, Q => ∃ g, R g ∧ (sh = true → shared g) ∧
      ∃ gs : Fin n → G, γ.fork g w gs ∧ (∀ rs, (k rs).Walk γ g Q) ∧
        ∀ i, (job i).Live γ shared R true fun _ _ ↦ True

variable {shared : G → Prop}

theorem Prog.Live.imp {R R' : G → Prop} (hR : ∀ g, R g → R' g) {p : Prog S ρ α} {sh : Bool}
    {Q : G → α → Prop} (hp : p.Live γ shared R sh Q) : p.Live γ shared R' sh Q := by
  induction p generalizing sh with
  | ret a =>
    obtain ⟨g, hg, hrest⟩ := hp
    exact ⟨g, hR g hg, hrest⟩
  | op o k _ =>
    obtain ⟨g, hg, hrest⟩ := hp
    exact ⟨g, hR g hg, hrest⟩
  | par w active job k ih _ =>
    obtain ⟨g, hg, hsh, gs, hfork, hk, hjob⟩ := hp
    exact ⟨g, hR g hg, hsh, gs, hfork, hk, fun i ↦ ih i (hjob i)⟩

/-- The program itself has a true ghost state. -/
theorem Prog.Live.exists_ghost {R : G → Prop} {p : Prog S ρ α} {sh : Bool} {Q : G → α → Prop}
    (hp : p.Live γ shared R sh Q) : ∃ g, R g := by
  cases p with
  | ret a =>
    obtain ⟨g, hg, -⟩ := hp
    exact ⟨g, hg⟩
  | op o k =>
    obtain ⟨g, hg, -⟩ := hp
    exact ⟨g, hg⟩
  | par w active job k =>
    obtain ⟨g, hg, -⟩ := hp
    exact ⟨g, hg⟩

variable {sem : (o : S.Op) → σ → S.Res o → σ → Prop} {env : σ → σ → Prop} {R : G → σ → Prop}

theorem Prog.Walk.live (T : Tracks γ sem env R shared) {p : Prog S ρ α} {g : G} {s : σ}
    {sh : Bool} {Q : G → α → Prop} (hp : p.Walk γ g Q) (hg : R g s) (hsh : sh = true → shared g) :
    p.Live γ shared (R · s) sh Q := by
  induction p generalizing g sh with
  | ret a => exact ⟨g, hg, hsh, hp⟩
  | op o k _ => exact ⟨g, hg, hsh, hp⟩
  | par w active job k ih _ =>
    obtain ⟨gs, hfork, hjob, hk⟩ := hp
    have hgs := T.fork hg hfork
    exact ⟨g, hg, hsh, gs, hfork, hk, fun i ↦ ih i (hjob i) (hgs i).1 fun _ ↦ (hgs i).2⟩

/-- One step: the ghost states stay true, the operation was permitted, and a step of a thread
with siblings leaves true what any thread knows. -/
theorem Step.live (T : Tracks γ sem env R shared) {p p' : Prog S ρ α} {s s' : σ}
    {e : Option (Event S σ)} (h : Step sem p s e p' s') {sh : Bool} {Q : G → α → Prop}
    (hp : p.Live γ shared (R · s) sh Q) :
    p'.Live γ shared (R · s') sh Q ∧ (∀ ev ∈ e, ∃ g, R g ev.pre ∧ γ.ok g ev.op) ∧
      (sh = true → ∀ g, R g s → R g s') := by
  induction h generalizing sh with
  | op h =>
    obtain ⟨g, hg, hsh, hok, hk⟩ := hp
    obtain ⟨g', hnext, hg', hsh'⟩ := T.own hg hok h
    refine ⟨(hk _ g' hnext).live T hg' fun hs ↦ hsh' (hsh hs), ?_, fun hs ↦ ?_⟩
    · rintro ev ⟨⟩
      exact ⟨g, hg, hok⟩
    · exact T.stable (hsh hs) hg hok h
  | start => exact ⟨hp, by simp, fun _ _ hg ↦ hg⟩
  | @child α n w active job k s s' e p i hi hs ih =>
    obtain ⟨g, hg, hsh, gs, hfork, hk, hjob⟩ := hp
    obtain ⟨hlive, hev, hstable⟩ := ih (hjob i)
    refine ⟨⟨g, hstable rfl g hg, hsh, gs, hfork, hk, fun j ↦ ?_⟩, hev, fun _ ↦ hstable rfl⟩
    by_cases hj : j = i
    · subst hj
      simpa using hlive
    · simpa [hj] using (hjob j).imp (hstable rfl)
  | join hact hret =>
    obtain ⟨g, hg, hsh, gs, -, hk, -⟩ := hp
    exact ⟨(hk _).live T hg hsh, by simp, fun _ _ hg ↦ hg⟩

/-- **Adequacy.** In an interleaved run every operation was permitted by a ghost state that was
true when it was asked, and the value at the end satisfies the postcondition. -/
theorem Run.ghost (T : Tracks γ sem env R shared) {p q : Prog S ρ α} {s t : σ}
    {tr : List (Event S σ)} (h : Run sem env p s tr q t) {Q : G → α → Prop}
    (hp : p.Live γ shared (R · s) false Q) :
    q.Live γ shared (R · t) false Q ∧ ∀ ev ∈ tr, ∃ g, R g ev.pre ∧ γ.ok g ev.op := by
  induction h with
  | refl => exact ⟨hp, by simp⟩
  | env he _ ih => exact ih (hp.imp (T.env he))
  | step hs _ ih =>
    obtain ⟨hlive, hev, -⟩ := hs.live T hp
    obtain ⟨hq, htr⟩ := ih hlive
    refine ⟨hq, fun ev hmem ↦ ?_⟩
    rcases List.mem_append.mp hmem with hmem | hmem
    · exact hev ev (by simpa using hmem)
    · exact htr ev hmem

/-! ## Progress -/

/-- If every operation a thread may ask for is answered, possibly after the world has moved, and
every parallel node has a worker, a program that has not ended can go on. -/
theorem Prog.Live.progress
    (hworker : ∀ g w n (gs : Fin n → G), γ.fork g w gs → 0 < w)
    (hans : ∀ g o s, R g s → γ.ok g o → ∃ s₁ r s₂, Relation.ReflTransGen env s s₁ ∧ sem o s₁ r s₂)
    {p : Prog S ρ α} {s : σ} {sh : Bool} {Q : G → α → Prop} (hp : p.Live γ shared (R · s) sh Q)
    (hv : p.value? = none) :
    ∃ s₁ e p' s', Relation.ReflTransGen env s s₁ ∧ Step sem p s₁ e p' s' := by
  induction p generalizing sh with
  | ret a => simp at hv
  | op o k _ =>
    obtain ⟨g, hg, -, hok, -⟩ := hp
    obtain ⟨s₁, r, s₂, henv, h⟩ := hans g o s hg hok
    exact ⟨s₁, _, _, _, henv, .op h⟩
  | @par α n w active job k ihjob _ =>
    obtain ⟨g, -, -, gs, hfork, -, hjob⟩ := hp
    have hw := hworker g w n gs hfork
    by_cases hbusy : ∃ i, active i = true ∧ (job i).value? = none
    · obtain ⟨i, hi, hval⟩ := hbusy
      obtain ⟨s₁, e, p', s', henv, h⟩ := ihjob i (hjob i) hval
      exact ⟨s₁, _, _, _, henv, .child _ hi h⟩
    · push Not at hbusy
      by_cases hline : ∃ i, active i = false
      · obtain ⟨i, hi, hleast⟩ := wellFounded_lt.has_min {i | active i = false} hline
        refine ⟨s, _, _, _, .refl, .start i hi (fun j hj ↦ ?_) ?_⟩
        · by_contra hne
          exact hleast j (by simpa using hne) hj
        · have hempty : busy active job = ∅ :=
            Finset.filter_eq_empty_iff.mpr fun i _ h ↦ hbusy i h.1 h.2
          rw [hempty, Finset.card_empty]
          exact hw
      · push Not at hline
        have hact : ∀ i, active i = true := fun i ↦ by simpa using hline i
        have hret : ∀ i, ∃ a, job i = .ret a := fun i ↦ by
          obtain ⟨a, ha⟩ := Option.ne_none_iff_exists'.mp (hbusy i (hact i))
          exact ⟨a, value?_eq_some_iff.mp ha⟩
        choose rs hrs using hret
        exact ⟨s, _, _, _, .refl, .join hact hrs⟩

/-- **Termination.** From where it is, the program can go on to its end. It has no infinite run
either, by `Prog.acc_next`. -/
theorem Prog.Live.exists_run (T : Tracks γ sem env R shared)
    (hworker : ∀ g w n (gs : Fin n → G), γ.fork g w gs → 0 < w)
    (hans : ∀ g o s, R g s → γ.ok g o → ∃ s₁ r s₂, Relation.ReflTransGen env s s₁ ∧ sem o s₁ r s₂)
    {p : Prog S ρ α} {s : σ} {Q : G → α → Prop} (hp : p.Live γ shared (R · s) false Q) :
    ∃ tr a t, Run sem env p s tr (.ret a) t := by
  induction p.acc_next generalizing s with
  | intro p _ ih =>
    cases hv : p.value? with
    | some a =>
      rw [value?_eq_some_iff.mp hv]
      exact ⟨[], a, s, .refl⟩
    | none =>
      obtain ⟨s₁, e, p', s', henv, hstep⟩ := hp.progress hworker hans hv
      have hp₁ : p.Live γ shared (R · s₁) false Q := by
        clear hstep
        induction henv with
        | refl => exact hp
        | tail _ h ih => exact ih.imp (T.env h)
      obtain ⟨tr, a, t, hrun⟩ := ih p' hstep.next (hstep.live T hp₁).1
      exact ⟨_, a, t, .of_env henv (.step hstep hrun)⟩

/-! ## Programs with one thread

Where there is nobody else, the ghost state follows the events one by one, and so it can also tell
in which order they come and how many there are. -/

/-- The ghost state goes from `g` to `g'` along the events, all of which it permits. -/
inductive Ghost.Trace (γ : Ghost S G) : G → List (Event S σ) → G → Prop
  | nil {g : G} : Trace γ g [] g
  | cons {g g' g'' : G} {ev : Event S σ} {tr : List (Event S σ)} (hok : γ.ok g ev.op)
      (hnext : γ.next g ev.op ev.res g') (h : Trace γ g' tr g'') : Trace γ g (ev :: tr) g''

/-- The events of a program without parallel nodes are permitted in the order in which they come. -/
theorem Run.trace (hnext : ∀ g o r, γ.ok g o → ∃ g', γ.next g o r g')
    (hfork : ∀ g w n (gs : Fin n → G), ¬ γ.fork g w gs) {p q : Prog S ρ α} {s t : σ}
    {tr : List (Event S σ)} (h : Run sem env p s tr q t) {g : G} {Q : G → α → Prop}
    (hp : p.Walk γ g Q) : ∃ g', Ghost.Trace γ g tr g' ∧ q.Walk γ g' Q := by
  induction h generalizing g with
  | refl => exact ⟨g, .nil, hp⟩
  | env _ _ ih => exact ih hp
  | step hs _ ih =>
    cases hs with
    | op h =>
      obtain ⟨g₁, hg₁⟩ := hnext g _ _ hp.1
      obtain ⟨g', htr, hq⟩ := ih (hp.2 _ g₁ hg₁)
      exact ⟨g', .cons hp.1 hg₁ htr, hq⟩
    | start | child | join =>
      obtain ⟨gs, hgs, -⟩ := hp
      exact absurd hgs (hfork _ _ _ gs)

theorem Ghost.Trace.of_append {g g'' : G} {tr tr' : List (Event S σ)}
    (h : Ghost.Trace γ g (tr ++ tr') g'') : ∃ g', Ghost.Trace γ g tr g' ∧ Ghost.Trace γ g' tr' g'' := by
  induction tr generalizing g with
  | nil => exact ⟨g, .nil, h⟩
  | cons ev tr ih =>
    cases h with
    | cons hok hnext h =>
      obtain ⟨g', htr, htr'⟩ := ih h
      exact ⟨g', .cons hok hnext htr, htr'⟩

/-- What the ghost state permits whatever it is holds of all events. -/
theorem Ghost.Trace.forall {P : S.Op → Prop} (hP : ∀ g o, γ.ok g o → P o) {g g' : G}
    {tr : List (Event S σ)} (h : Ghost.Trace γ g tr g') : ∀ ev ∈ tr, P ev.op := by
  induction h with
  | nil => simp
  | cons hok _ _ ih =>
    intro ev hev
    rcases List.mem_cons.mp hev with rfl | hev
    · exact hP _ _ hok
    · exact ih ev hev

/-! ## Sequential programs

A program without parallel nodes whose operations teach a ghost state nothing leaves it as it is. -/

/-- The program has no parallel nodes, and every operation it may ask for satisfies `P`. -/
def Prog.Seq (P : S.Op → Prop) : {α : Type} → Prog S ρ α → Prop
  | _, .ret _ => True
  | _, .op o k => P o ∧ ∀ r, (k r).Seq P
  | _, .par _ _ _ _ => False

theorem Prog.Seq.bind {P : S.Op → Prop} {p : Prog S ρ α} {f : α → Prog S ρ β} (hp : p.Seq P)
    (hf : ∀ a, (f a).Seq P) : (p.bind f).Seq P := by
  induction p with
  | ret a => exact hf a
  | op o k ih => exact ⟨hp.1, fun r ↦ ih r (hp.2 r) hf⟩
  | par => exact hp.elim

theorem Prog.Seq.imp {P Q : S.Op → Prop} (h : ∀ o, P o → Q o) {p : Prog S ρ α} (hp : p.Seq P) :
    p.Seq Q := by
  induction p with
  | ret a => trivial
  | op o k ih => exact ⟨h o hp.1, fun r ↦ ih r (hp.2 r)⟩
  | par => exact hp.elim

theorem Prog.Seq.walk {P : S.Op → Prop} {p : Prog S ρ α} (hp : p.Seq P) {g : G}
    (hok : ∀ o, P o → γ.ok g o) (hnext : ∀ o r g', P o → γ.next g o r g' → g' = g) :
    p.Walk γ g fun g' _ ↦ g' = g := by
  induction p with
  | ret a => rfl
  | op o k ih =>
    refine ⟨hok o hp.1, fun r g' hg' ↦ ?_⟩
    obtain rfl := hnext o r g' hp.1 hg'
    exact ih r (hp.2 r)
  | par => exact hp.elim

/-- The ghost state that a program without parallel nodes reads off the answers it gets. -/
def Ghost.reads (f : G → (o : S.Op) → S.Res o → G) : Ghost S G where
  ok _ _ := True
  next g o r g' := g' = f g o r
  fork _ _ _ _ := False

/-- At the end the ghost state is a fold of the trace. -/
theorem Run.walk_reads {f : G → (o : S.Op) → S.Res o → G} {p : Prog S ρ α} {s t : σ}
    {tr : List (Event S σ)} {a : α} (h : Run sem env p s tr (.ret a) t) {g : G}
    {Q : G → α → Prop} (hp : p.Walk (.reads f) g Q) :
    Q (tr.foldl (fun g ev ↦ f g ev.op ev.res) g) a := by
  generalize hq : Prog.ret a = q at h
  induction h generalizing g with
  | refl =>
    subst hq
    exact hp
  | env _ _ ih => exact ih hp hq
  | step hs _ ih =>
    cases hs with
    | op hsem => exact ih (hp.2 _ _ rfl) hq
    | start => exact absurd hp.choose_spec.1 id
    | child => exact absurd hp.choose_spec.1 id
    | join => exact absurd hp.choose_spec.1 id

/-! ## Properties of all operations

With nothing to remember, a ghost state says which operations occur at all. -/

/-- The ghost state that permits the operations in `P` and remembers nothing. -/
def Ghost.only (P : S.Op → Prop) : Ghost S Unit where
  ok _ o := P o
  next _ _ _ _ := True
  fork _ _ _ _ := True

/-- Every operation the program may ask for satisfies `P`. -/
def Prog.All (P : S.Op → Prop) (p : Prog S ρ α) : Prop :=
  p.Walk (Ghost.only P) () fun _ _ ↦ True

@[simp] theorem Prog.all_ret {P : S.Op → Prop} {a : α} : (ret a : Prog S ρ α).All P := trivial

@[simp] theorem Prog.all_op {P : S.Op → Prop} {o : S.Op} {k : S.Res o → Prog S ρ α} :
    (op o k).All P ↔ P o ∧ ∀ r, (k r).All P :=
  ⟨fun h ↦ ⟨h.1, fun r ↦ h.2 r () trivial⟩, fun h ↦ ⟨h.1, fun r _ _ ↦ h.2 r⟩⟩

theorem Prog.all_true (p : Prog S ρ α) : p.All fun _ ↦ True := by
  induction p with
  | ret a => exact all_ret
  | op o k ih => exact all_op.mpr ⟨trivial, ih⟩
  | par w active job k ihjob ih => exact ⟨fun _ ↦ (), trivial, ihjob, ih⟩

/-- In a run of a program all of whose operations satisfy `P`, what these operations and the world
keep holds all the time. -/
theorem Run.all {P : S.Op → Prop} {I : σ → Prop}
    (hop : ∀ o s r s', sem o s r s' → P o → I s → I s') (henv : ∀ s s', env s s' → I s → I s')
    {p q : Prog S ρ α} {s t : σ} {tr : List (Event S σ)} (h : Run sem env p s tr q t)
    (hp : p.All P) (hs : I s) : I t ∧ ∀ ev ∈ tr, I ev.pre ∧ P ev.op := by
  have T : Tracks (Ghost.only P) sem env (fun _ s ↦ I s) fun _ ↦ True :=
    ⟨fun hs hok h ↦ ⟨(), trivial, hop _ _ _ _ h hok hs, fun _ ↦ trivial⟩,
      fun _ _ hok h _ hs ↦ hop _ _ _ _ h hok hs, fun h _ hs ↦ henv _ _ h hs,
      fun hs _ _ ↦ ⟨hs, trivial⟩⟩
  obtain ⟨hq, htr⟩ := h.ghost T (hp.live T hs fun _ ↦ trivial)
  obtain ⟨-, ht⟩ := hq.exists_ghost
  exact ⟨ht, fun ev hev ↦ (htr ev hev).elim fun _ hg ↦ hg⟩

/-- With nothing to remember either, a walk speaks of the value at the end alone. -/
theorem Run.value {p : Prog S ρ α} {a : α} {s t : σ} {tr : List (Event S σ)}
    (h : Run sem env p s tr (.ret a) t) {Q : α → Prop}
    (hp : p.Walk (Ghost.only fun _ ↦ True) () fun _ a ↦ Q a) : Q a := by
  have T : Tracks (Ghost.only (S := S) fun _ ↦ True) sem env (fun _ _ ↦ True) fun _ ↦ True :=
    ⟨fun _ _ _ ↦ ⟨(), trivial, trivial, fun _ ↦ trivial⟩, fun _ _ _ _ _ _ ↦ trivial,
      fun _ _ _ ↦ trivial, fun _ _ _ ↦ ⟨trivial, trivial⟩⟩
  obtain ⟨⟨_, -, -, hQ⟩, -⟩ := h.ghost T (hp.live (s := s) T trivial fun _ ↦ trivial)
  exact hQ

end Interleaving
