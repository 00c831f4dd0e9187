import GoMesi.Interleaving.Ghost

/-!
# Pools of threads

A pool is a family of programs over one world. Any of them may take the next step. The family may be
infinite, so that a pool in which only finitely many threads have begun stands for any number of
calls that arrive at any time.

The threads of a pool have no jobs of their own: a thread that comes to a parallel node stands still.

An invariant of a pool speaks of the world, of the ghost states of all threads, and of the events so
far. `PoolRun.ghost` is its induction.
-/

namespace Interleaving

variable {S : Signature} {G ρ σ α ι : Type}

/-- A run of a pool, with its events and the threads that made them in order. -/
inductive PoolRun [DecidableEq ι] (sem : (o : S.Op) → σ → S.Res o → σ → Prop) :
    (ι → Prog S ρ α) → σ → List (ι × Event S σ) → (ι → Prog S ρ α) → σ → Prop
  | refl {p : ι → Prog S ρ α} {s : σ} : PoolRun sem p s [] p s
  | step {p q : ι → Prog S ρ α} {s s' t : σ} {tr : List (ι × Event S σ)} (i : ι) {o : S.Op}
      {k : S.Res o → Prog S ρ α} {r : S.Res o} (hi : p i = .op o k) (h : sem o s r s')
      (hr : PoolRun sem (Function.update p i (k r)) s' tr q t) :
      PoolRun sem p s ((i, ⟨s, o, r⟩) :: tr) q t

variable [DecidableEq ι] {sem : (o : S.Op) → σ → S.Res o → σ → Prop}

/-- **Invariants of pools.** If every operation that the ghost state of its thread permits keeps an
invariant, it is kept by every run of threads that ask for nothing else. -/
theorem PoolRun.ghost {γ : ι → Ghost S G} {I : List (ι × Event S σ) → (ι → G) → σ → Prop}
    (hop : ∀ tr gs s i o r s', I tr gs s → (γ i).ok (gs i) o → sem o s r s' →
      ∃ g', (γ i).next (gs i) o r g' ∧ I (tr ++ [(i, ⟨s, o, r⟩)]) (Function.update gs i g') s')
    {p q : ι → Prog S ρ α} {s t : σ} {tr : List (ι × Event S σ)} (h : PoolRun sem p s tr q t)
    {gs : ι → G} {Q : ι → G → α → Prop} (hp : ∀ i, (p i).Walk (γ i) (gs i) (Q i))
    {tr₀ : List (ι × Event S σ)} (hI : I tr₀ gs s) :
    ∃ gs', (∀ i, (q i).Walk (γ i) (gs' i) (Q i)) ∧ I (tr₀ ++ tr) gs' t := by
  induction h generalizing gs tr₀ with
  | refl => exact ⟨gs, hp, by simpa using hI⟩
  | @step p q s s' t tr i o k r hi h _ ih =>
    have hwalk := hp i
    rw [hi] at hwalk
    obtain ⟨g', hnext, hI'⟩ := hop tr₀ gs s i o r s' hI hwalk.1 h
    have hp' : ∀ j, (Function.update p i (k r) j).Walk (γ j) (Function.update gs i g' j) (Q j) := by
      intro j
      by_cases hj : j = i
      · subst hj
        simpa using hwalk.2 r g' hnext
      · simpa [hj] using hp j
    obtain ⟨gs', hq, hI''⟩ := ih hp' hI'
    exact ⟨gs', hq, by simpa using hI''⟩

/-! ## Executing -/

/-- Let the threads of a list take a step each, one after the other, with the answers `ans`. A
thread that cannot take one is skipped. -/
def poolExec (ans : (o : S.Op) → σ → Option (S.Res o × σ)) :
    List ι → (ι → Prog S ρ α) → σ → List (ι × Event S σ) × (ι → Prog S ρ α) × σ
  | [], p, s => ([], p, s)
  | i :: sched, p, s =>
    match p i with
    | .op o k =>
      match ans o s with
      | some (r, s') =>
        let out := poolExec ans sched (Function.update p i (k r)) s'
        ((i, ⟨s, o, r⟩) :: out.1, out.2)
      | none => poolExec ans sched p s
    | _ => poolExec ans sched p s

theorem poolExec_run {ans : (o : S.Op) → σ → Option (S.Res o × σ)}
    (hans : ∀ o s r s', ans o s = some (r, s') → sem o s r s') (sched : List ι)
    (p : ι → Prog S ρ α) (s : σ) :
    PoolRun sem p s (poolExec ans sched p s).1 (poolExec ans sched p s).2.1
      (poolExec ans sched p s).2.2 := by
  induction sched generalizing p s with
  | nil => exact .refl
  | cons i sched ih =>
    simp only [poolExec]
    split
    · rename_i o k hi
      split
      · rename_i r s' hans'
        exact .step i hi (hans _ _ _ _ hans') (ih _ _)
      · exact ih p s
    · exact ih p s

end Interleaving
