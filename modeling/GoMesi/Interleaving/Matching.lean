import GoMesi.Interleaving.Run

/-!
# Programs that do the same

Two programs match when they ask for corresponding operations as long as they get corresponding
answers, with the same families of jobs, and end with corresponding values. What corresponds is given
by a `Matching`, so that a program can be compared with itself under other names, or in a world that
answers differently.

If two worlds simulate each other along the matching, every run of the one program is a run of the
other (`Run.matched`), and a matching can be read backwards (`Prog.Matches.flip`).
-/

namespace Interleaving

variable {S : Signature} {ρ σ τ α β α' β' : Type}

/-- Which operations, answers and values of jobs correspond to each other. -/
structure Matching (S : Signature) (ρ : Type) where
  /-- The operations. -/
  op : S.Op → S.Op → Prop
  /-- The answers to two operations. -/
  res : (o o' : S.Op) → S.Res o → S.Res o' → Prop
  /-- The values of two jobs. -/
  val : ρ → ρ → Prop

namespace Matching

/-- The matching read backwards. -/
def flip (M : Matching S ρ) : Matching S ρ where
  op o o' := M.op o' o
  res o o' r r' := M.res o' o r' r
  val a b := M.val b a

/-- The operations are renamed. -/
def ofMap (f : S.Op → S.Op) (res : (o : S.Op) → S.Res o → S.Res (f o) → Prop)
    (val : ρ → ρ → Prop) : Matching S ρ where
  op o o' := f o = o'
  res o o' r r' := ∃ h : f o = o', res o r (h ▸ r')
  val := val

end Matching

namespace Prog

/-- The two programs do the same, and they end with values that are related by `Q`. -/
def Matches (M : Matching S ρ) :
    {α β : Type} → (α → β → Prop) → Prog S ρ α → Prog S ρ β → Prop
  | _, _, Q, ret a, q => ∃ b, q = ret b ∧ Q a b
  | _, _, Q, op o k, q =>
    ∃ o' k', q = op o' k' ∧ M.op o o' ∧ ∀ r r', M.res o o' r r' → (k r).Matches M Q (k' r')
  | _, _, Q, par w active job k, q =>
    ∃ job' k', q = par w active job' k' ∧ (∀ i, (job i).Matches M M.val (job' i)) ∧
      ∀ rs rs', (∀ i, M.val (rs i) (rs' i)) → (k rs).Matches M Q (k' rs')

variable {M : Matching S ρ} {Q : α → β → Prop} {p : Prog S ρ α} {q : Prog S ρ β}

namespace Matches

theorem ret {a : α} {b : β} (h : Q a b) : (Prog.ret a : Prog S ρ α).Matches M Q (.ret b) :=
  ⟨b, rfl, h⟩

theorem op {o o' : S.Op} {k : S.Res o → Prog S ρ α} {k' : S.Res o' → Prog S ρ β} (ho : M.op o o')
    (hk : ∀ r r', M.res o o' r r' → (k r).Matches M Q (k' r')) :
    (Prog.op o k).Matches M Q (.op o' k') :=
  ⟨o', k', rfl, ho, hk⟩

theorem par {n w : ℕ} {active : Fin n → Bool} {job job' : Fin n → Prog S ρ ρ}
    {k : (Fin n → ρ) → Prog S ρ α} {k' : (Fin n → ρ) → Prog S ρ β}
    (hjob : ∀ i, (job i).Matches M M.val (job' i))
    (hk : ∀ rs rs', (∀ i, M.val (rs i) (rs' i)) → (k rs).Matches M Q (k' rs')) :
    (Prog.par w active job k).Matches M Q (.par w active job' k') :=
  ⟨job', k', rfl, hjob, hk⟩

theorem mono {Q' : α → β → Prop} (h : p.Matches M Q q) (hQ : ∀ a b, Q a b → Q' a b) :
    p.Matches M Q' q := by
  induction p generalizing β with
  | ret a =>
    obtain ⟨b, rfl, hb⟩ := h
    exact .ret (hQ a b hb)
  | op o k ih =>
    obtain ⟨o', k', rfl, ho, hk⟩ := h
    exact .op ho fun r r' hr ↦ ih r (hk r r' hr) hQ
  | par w active job k _ ih =>
    obtain ⟨job', k', rfl, hjob, hk⟩ := h
    exact .par hjob fun rs rs' hrs ↦ ih rs (hk rs rs' hrs) hQ

theorem bind {Q' : α' → β' → Prop} {f : α → Prog S ρ α'} {g : β → Prog S ρ β'}
    (h : p.Matches M Q q) (hf : ∀ a b, Q a b → (f a).Matches M Q' (g b)) :
    (p.bind f).Matches M Q' (q.bind g) := by
  induction p generalizing β with
  | ret a =>
    obtain ⟨b, rfl, hb⟩ := h
    exact hf a b hb
  | op o k ih =>
    obtain ⟨o', k', rfl, ho, hk⟩ := h
    exact .op ho fun r r' hr ↦ ih r (hk r r' hr) hf
  | par w active job k _ ih =>
    obtain ⟨job', k', rfl, hjob, hk⟩ := h
    exact .par hjob fun rs rs' hrs ↦ ih rs (hk rs rs' hrs) hf

theorem fork {n : ℕ} {w : ℕ} {job job' : Fin n → Prog S ρ ρ}
    (h : ∀ i, (job i).Matches M M.val (job' i)) :
    (Prog.fork w job).Matches M (fun rs rs' ↦ ∀ i, M.val (rs i) (rs' i)) (Prog.fork w job') :=
  .par h fun _ _ hrs ↦ .ret hrs

theorem flip (h : p.Matches M Q q) : q.Matches M.flip (fun b a ↦ Q a b) p := by
  induction p generalizing β with
  | ret a =>
    obtain ⟨b, rfl, hb⟩ := h
    exact .ret hb
  | op o k ih =>
    obtain ⟨o', k', rfl, ho, hk⟩ := h
    exact .op ho fun r' r hr ↦ ih r (hk r r' hr)
  | par w active job k ihjob ih =>
    obtain ⟨job', k', rfl, hjob, hk⟩ := h
    exact .par (fun i ↦ ihjob i (hjob i)) fun rs' rs hrs ↦ ih rs (hk rs rs' hrs)

theorem value?_eq_none (h : p.Matches M Q q) : q.value? = none ↔ p.value? = none := by
  cases p with
  | ret a =>
    obtain ⟨b, rfl, -⟩ := h
    simp
  | op o k =>
    obtain ⟨o', k', rfl, -⟩ := h
    simp
  | par w active job k =>
    obtain ⟨job', k', rfl, -⟩ := h
    simp

/-- What the one program can end with the other one can end with as well. -/
theorem ends {C C' : (o : S.Op) → S.Res o → Prop}
    (hC : ∀ o o' r, M.op o o' → C o r → ∃ r', C' o' r' ∧ M.res o o' r r') (h : p.Matches M Q q)
    {a : α} (ha : p.Ends C a) : ∃ b, q.Ends C' b ∧ Q a b := by
  induction p generalizing β with
  | ret a' =>
    obtain ⟨b, rfl, hb⟩ := h
    exact ⟨b, rfl, (show a = a' from ha) ▸ hb⟩
  | op o k ih =>
    obtain ⟨o', k', rfl, ho, hk⟩ := h
    obtain ⟨r, hr, ha⟩ := ha
    obtain ⟨r', hr', hres⟩ := hC o o' r ho hr
    obtain ⟨b, hb, hQ⟩ := ih r (hk r r' hres) ha
    exact ⟨b, ⟨r', hr', hb⟩, hQ⟩
  | par w active job k ihjob ih =>
    obtain ⟨job', k', rfl, hjob, hk⟩ := h
    obtain ⟨rs, hrs, ha⟩ := ha
    choose rs' hrs' hval using fun i ↦ ihjob i (hjob i) (hrs i)
    obtain ⟨b, hb, hQ⟩ := ih rs (hk rs rs' hval) ha
    exact ⟨b, ⟨rs', hrs', hb⟩, hQ⟩

end Matches

end Prog

/-! ## Runs -/

/-- The second world can do what the first one does. -/
structure Matching.Simulates (M : Matching S ρ) (sem : (o : S.Op) → σ → S.Res o → σ → Prop)
    (env : σ → σ → Prop) (sem' : (o : S.Op) → τ → S.Res o → τ → Prop) (env' : τ → τ → Prop)
    (Z : σ → τ → Prop) : Prop where
  /-- An operation is answered correspondingly. -/
  own : ∀ {o o' s t r s'}, Z s t → M.op o o' → sem o s r s' →
    ∃ r' t', sem' o' t r' t' ∧ M.res o o' r r' ∧ Z s' t'
  /-- A move of the world has a counterpart. -/
  env : ∀ {s t s'}, Z s t → env s s' → ∃ t', env' t t' ∧ Z s' t'

variable {M : Matching S ρ} {sem : (o : S.Op) → σ → S.Res o → σ → Prop} {env : σ → σ → Prop}
  {sem' : (o : S.Op) → τ → S.Res o → τ → Prop} {env' : τ → τ → Prop} {Z : σ → τ → Prop}

/-- Two events correspond to each other. -/
def Matching.Event (M : Matching S ρ) (Z : σ → τ → Prop) (e : Event S σ) (e' : Event S τ) : Prop :=
  Z e.pre e'.pre ∧ M.op e.op e'.op ∧ M.res e.op e'.op e.res e'.res

/-- A step of a program is a step of a program that matches it. -/
theorem Step.matched (h : M.Simulates sem env sem' env' Z) {Q : α → β → Prop} {p p' : Prog S ρ α}
    {q : Prog S ρ β} {s s' : σ} {t : τ} {e : Option (Event S σ)} (hs : Step sem p s e p' s')
    (hpq : p.Matches M Q q) (hZ : Z s t) :
    ∃ e' q' t', Step sem' q t e' q' t' ∧ Option.Rel (M.Event Z) e e' ∧ p'.Matches M Q q' ∧ Z s' t' := by
  induction hs generalizing β q with
  | op hsem =>
    obtain ⟨o', k', rfl, ho, hk⟩ := hpq
    obtain ⟨r', t', hsem', hres, hZ'⟩ := h.own hZ ho hsem
    exact ⟨_, _, t', .op hsem', .some ⟨hZ, ho, hres⟩, hk _ r' hres, hZ'⟩
  | @start α n w active job k s i hi hline hw =>
    obtain ⟨job', k', rfl, hjob, hk⟩ := hpq
    have hbusy : Prog.busy active job' = Prog.busy active job :=
      Finset.filter_congr fun i _ ↦ and_congr_right fun _ ↦ (hjob i).value?_eq_none
    exact ⟨none, _, t, .start i hi hline (hbusy ▸ hw), .none, ⟨job', k', rfl, hjob, hk⟩, hZ⟩
  | @child α n w active job k s s' e p i hi _ ih =>
    obtain ⟨job', k', rfl, hjob, hk⟩ := hpq
    obtain ⟨e', q', t', hstep, he, hpq', hZ'⟩ := ih (hjob i) hZ
    refine ⟨e', _, t', .child i hi hstep, he, ⟨_, k', rfl, fun j ↦ ?_, hk⟩, hZ'⟩
    by_cases hj : j = i
    · subst hj
      rw [Function.update_self, Function.update_self]
      exact hpq'
    · rw [Function.update_of_ne hj, Function.update_of_ne hj]
      exact hjob j
  | @join α n w active job k s rs hact hret =>
    obtain ⟨job', k', rfl, hjob, hk⟩ := hpq
    have hvals : ∀ i, ∃ b, job' i = .ret b ∧ M.val (rs i) b := fun i ↦ by
      have hi := hjob i
      rw [hret i] at hi
      exact hi
    choose rs' hret' hval using hvals
    exact ⟨none, _, t, .join hact hret', .none, hk rs rs' hval, hZ⟩

/-- **Matching runs.** A run of a program is a run of a program that matches it, with corresponding
events. -/
theorem Run.matched (h : M.Simulates sem env sem' env' Z) {Q : α → β → Prop} {p p' : Prog S ρ α}
    {q : Prog S ρ β} {s s' : σ} {t : τ} {tr : List (Event S σ)} (hrun : Run sem env p s tr p' s')
    (hpq : p.Matches M Q q) (hZ : Z s t) :
    ∃ tr' q' t', Run sem' env' q t tr' q' t' ∧ List.Forall₂ (M.Event Z) tr tr' ∧
      p'.Matches M Q q' ∧ Z s' t' := by
  induction hrun generalizing q t with
  | refl => exact ⟨[], q, t, .refl, .nil, hpq, hZ⟩
  | env he _ ih =>
    obtain ⟨t₁, he', hZ₁⟩ := h.env hZ he
    obtain ⟨tr', q', t', hrun', htr, hpq', hZ'⟩ := ih hpq hZ₁
    exact ⟨tr', q', t', .env he' hrun', htr, hpq', hZ'⟩
  | step hs _ ih =>
    obtain ⟨e', q₁, t₁, hs', he, hpq₁, hZ₁⟩ := hs.matched h hpq hZ
    obtain ⟨tr', q', t', hrun', htr, hpq', hZ'⟩ := ih hpq₁ hZ₁
    refine ⟨_, q', t', .step hs' hrun', ?_, hpq', hZ'⟩
    cases he with
    | none => exact htr
    | some he => exact .cons he htr

end Interleaving
