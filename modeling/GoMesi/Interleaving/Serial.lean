import GoMesi.Interleaving.Run

/-!
# Race-free programs run as if their jobs ran one by one

The world is a heap, a value for each location, and an operation touches the locations of its
footprint only. A program is *confined* when at every parallel node the jobs can be given regions
such that no job reads or writes what another one writes. For such programs the interleaving does
not matter: a finished run is also an evaluation in which every job of a parallel node starts from
the heap at the fork and the changes are put together at the join.

The proof goes backwards over a run. A step followed by an evaluation is an evaluation
(`Step.eval`); when the step belongs to one job, the evaluations of its siblings are moved to the
heap before it, which is possible since they look at a part of the heap the step did not
touch (`Eval.move`).

`Eval` is a relation since answers other than those read from the heap are left to the world. What
it takes away is the order of the jobs and nothing else.
-/

namespace Interleaving

variable {S : Signature} {ρ Loc Val α β : Type}

/-- The heap after a parallel node: a location holds what the job that changed it left there, and
at most one job changed it. -/
def Merge {n : ℕ} (h : Loc → Val) (hs : Fin n → Loc → Val) (h' : Loc → Val) : Prop :=
  ∀ l, (h' l = h l ∧ ∀ i, hs i l = h l) ∨ ∃ i, h' l = hs i l ∧ ∀ j, j ≠ i → hs j l = h l

/-- The program ends with `a` and leaves the heap `h'` when its jobs run one by one. -/
def Prog.Eval (sem : (o : S.Op) → (Loc → Val) → S.Res o → (Loc → Val) → Prop) :
    {α : Type} → Prog S ρ α → (Loc → Val) → α → (Loc → Val) → Prop
  | _, .ret a, h, b, h' => b = a ∧ h' = h
  | _, .op o k, h, b, h' => ∃ r h₁, sem o h r h₁ ∧ (k r).Eval sem h₁ b h'
  | _, .par _ _ job k, h, b, h' => ∃ rs hs h₁, (∀ i, (job i).Eval sem h (rs i) (hs i)) ∧
      Merge h hs h₁ ∧ (k rs).Eval sem h₁ b h'

/-- The operations of the world touch no more of the heap than their footprint. -/
structure Footprint (sem : (o : S.Op) → (Loc → Val) → S.Res o → (Loc → Val) → Prop)
    (rd wr : S.Op → Set Loc) : Prop where
  /-- An operation writes to `wr` only. -/
  frame : ∀ {o h r h'}, sem o h r h' → ∀ l ∉ wr o, h' l = h l
  /-- What an operation does depends on `rd` only. -/
  move : ∀ {o h r h' g}, sem o h r h' → (∀ l ∈ rd o, g l = h l) →
    ∃ g', sem o g r g' ∧ (∀ l ∈ wr o, g' l = h' l) ∧ ∀ l ∉ wr o, g' l = g l

/-- The program writes to `W` and reads from `R` only, and the jobs of its parallel nodes have
regions of their own. -/
def Prog.Confined (rd wr : S.Op → Set Loc) :
    {α : Type} → Set Loc → Set Loc → Prog S ρ α → Prop
  | _, _, _, .ret _ => True
  | _, W, R, .op o k => rd o ⊆ R ∧ wr o ⊆ W ∧ ∀ r, (k r).Confined rd wr W R
  | _, W, R, .par (n := n) _ _ job k =>
    (∃ Ws Rs : Fin n → Set Loc, (∀ i, Ws i ⊆ W ∧ Rs i ⊆ R ∧ Ws i ⊆ Rs i ∧
        (job i).Confined rd wr (Ws i) (Rs i)) ∧ ∀ i j, i ≠ j → Disjoint (Ws i) (Rs j)) ∧
      ∀ rs, (k rs).Confined rd wr W R

namespace Prog

variable {sem : (o : S.Op) → (Loc → Val) → S.Res o → (Loc → Val) → Prop}
  {rd wr : S.Op → Set Loc} {W R : Set Loc}

theorem eval_bind {p : Prog S ρ α} {f : α → Prog S ρ β} {h h' : Loc → Val} {b : β} :
    (p.bind f).Eval sem h b h' ↔ ∃ a h₁, p.Eval sem h a h₁ ∧ (f a).Eval sem h₁ b h' := by
  induction p generalizing h with
  | ret a => simp [Eval]
  | op o k ih =>
    simp only [op_bind, Eval, ih]
    constructor
    · rintro ⟨r, h₁, hs, a, h₂, ha, hb⟩
      exact ⟨a, h₂, ⟨r, h₁, hs, ha⟩, hb⟩
    · rintro ⟨a, h₂, ⟨r, h₁, hs, ha⟩, hb⟩
      exact ⟨r, h₁, hs, a, h₂, ha, hb⟩
  | par w active job k _ ih =>
    simp only [par_bind, Eval, ih]
    constructor
    · rintro ⟨rs, hs, h₁, hjob, hm, a, h₂, ha, hb⟩
      exact ⟨a, h₂, ⟨rs, hs, h₁, hjob, hm, ha⟩, hb⟩
    · rintro ⟨a, h₂, ⟨rs, hs, h₁, hjob, hm, ha⟩, hb⟩
      exact ⟨rs, hs, h₁, hjob, hm, a, h₂, ha, hb⟩

theorem Confined.bind {p : Prog S ρ α} {f : α → Prog S ρ β} (hp : p.Confined rd wr W R)
    (hf : ∀ a, (f a).Confined rd wr W R) : (p.bind f).Confined rd wr W R := by
  induction p with
  | ret a => exact hf a
  | op o k ih => exact ⟨hp.1, hp.2.1, fun r ↦ ih r (hp.2.2 r) hf⟩
  | par w active job k _ ih => exact ⟨hp.1, fun rs ↦ ih rs (hp.2 rs) hf⟩

variable (fp : Footprint sem rd wr)

include fp

/-- A confined program leaves everything outside its region as it is. -/
theorem Eval.frame {p : Prog S ρ α} {h h' : Loc → Val} {a : α} (hp : p.Confined rd wr W R)
    (he : p.Eval sem h a h') : ∀ l ∉ W, h' l = h l := by
  induction p generalizing h h' W R with
  | ret b =>
    intro l _
    rw [he.2]
  | op o k ih =>
    obtain ⟨r, h₁, hs, hk⟩ := he
    intro l hl
    rw [ih r (hp.2.2 r) hk l hl, fp.frame hs l fun hw ↦ hl (hp.2.1 hw)]
  | par w active job k ihjob ih =>
    obtain ⟨rs, hs, h₁, hjob, hm, hk⟩ := he
    obtain ⟨⟨Ws, Rs, hreg, -⟩, hcont⟩ := hp
    intro l hl
    rw [ih rs (hcont rs) hk l hl]
    rcases hm l with ⟨h₁l, -⟩ | ⟨i, h₁l, -⟩
    · exact h₁l
    · rw [h₁l]
      exact ihjob i (hreg i).2.2.2 (hjob i) l fun hw ↦ hl ((hreg i).1 hw)

/-- **Moving an evaluation.** A confined program does the same on a heap that agrees with the given
one on the region it reads. -/
theorem Eval.move {p : Prog S ρ α} {h h' g : Loc → Val} {a : α} (hWR : W ⊆ R)
    (hp : p.Confined rd wr W R) (he : p.Eval sem h a h') (hg : ∀ l ∈ R, g l = h l) :
    ∃ g', p.Eval sem g a g' ∧ (∀ l ∈ R, g' l = h' l) ∧ ∀ l ∉ W, g' l = g l := by
  induction p generalizing h h' g W R with
  | ret b =>
    obtain ⟨rfl, rfl⟩ := he
    exact ⟨g, ⟨rfl, rfl⟩, hg, fun _ _ ↦ rfl⟩
  | op o k ih =>
    obtain ⟨r, h₁, hs, hk⟩ := he
    obtain ⟨g₁, hs', hin, hout⟩ := fp.move hs fun l hl ↦ hg l (hp.1 hl)
    have hg₁ : ∀ l ∈ R, g₁ l = h₁ l := by
      intro l hl
      by_cases hw : l ∈ wr o
      · exact hin l hw
      · rw [hout l hw, fp.frame hs l hw, hg l hl]
    obtain ⟨g', hk', hR, hW⟩ := ih r hWR (hp.2.2 r) hk hg₁
    refine ⟨g', ⟨r, g₁, hs', hk'⟩, hR, fun l hl ↦ ?_⟩
    rw [hW l hl, hout l fun hw ↦ hl (hp.2.1 hw)]
  | @par α n w active job k ihjob ih =>
    classical
    obtain ⟨rs, hs, h₁, hjob, hm, hk⟩ := he
    obtain ⟨⟨Ws, Rs, hreg, hdisj⟩, hcont⟩ := hp
    have hmove : ∀ i, ∃ g', (job i).Eval sem g (rs i) g' ∧ (∀ l ∈ Rs i, g' l = hs i l) ∧
        ∀ l ∉ Ws i, g' l = g l := fun i ↦
      ihjob i (hreg i).2.2.1 (hreg i).2.2.2 (hjob i) fun l hl ↦ hg l ((hreg i).2.1 hl)
    choose gs hgs hin hout using hmove
    -- what a job left at a location, seen from the other heap
    have hgsl : ∀ l ∈ R, ∀ i, hs i l = h l → gs i l = g l := by
      intro l hl i hil
      by_cases hw : l ∈ Ws i
      · rw [hin i l ((hreg i).2.2.1 hw), hil, hg l hl]
      · exact hout i l hw
    let g₁ : Loc → Val := fun l ↦ if l ∈ R then h₁ l else g l
    have hg₁ : ∀ l ∈ R, g₁ l = h₁ l := fun l hl ↦ if_pos hl
    have hmerge : Merge g gs g₁ := by
      intro l
      by_cases hl : l ∈ R
      · rw [hg₁ l hl]
        rcases hm l with ⟨h₁l, hsl⟩ | ⟨i, h₁l, hsl⟩
        · exact .inl ⟨h₁l.trans (hg l hl).symm, fun i ↦ hgsl l hl i (hsl i)⟩
        · refine .inr ⟨i, ?_, fun j hj ↦ hgsl l hl j (hsl j hj)⟩
          by_cases hw : l ∈ Ws i
          · rw [h₁l, hin i l ((hreg i).2.2.1 hw)]
          · rw [h₁l, Eval.frame fp (hreg i).2.2.2 (hjob i) l hw, hout i l hw, hg l hl]
      · exact .inl ⟨if_neg hl, fun i ↦
          hout i l fun hw ↦ hl ((hreg i).2.1 ((hreg i).2.2.1 hw))⟩
    obtain ⟨g', hk', hR, hW⟩ := ih rs hWR (hcont rs) hk hg₁
    refine ⟨g', ⟨rs, gs, g₁, hgs, hmerge, hk'⟩, hR, fun l hl ↦ ?_⟩
    rw [hW l hl]
    rcases hmerge l with ⟨hgl, -⟩ | ⟨i, hgl, -⟩
    · exact hgl
    · rw [hgl, hout i l fun hw ↦ hl ((hreg i).1 hw)]

end Prog

variable {sem : (o : S.Op) → (Loc → Val) → S.Res o → (Loc → Val) → Prop}
  {env : (Loc → Val) → (Loc → Val) → Prop} {rd wr : S.Op → Set Loc} {W R : Set Loc}

/-- A step keeps a program confined and writes to its region only. -/
theorem Step.confined (fp : Footprint sem rd wr) {p p' : Prog S ρ α} {h h' : Loc → Val}
    {e : Option (Event S (Loc → Val))} (hs : Step sem p h e p' h')
    (hp : p.Confined rd wr W R) : p'.Confined rd wr W R ∧ ∀ l ∉ W, h' l = h l := by
  induction hs generalizing W R with
  | op h => exact ⟨hp.2.2 _, fun l hl ↦ fp.frame h l fun hw ↦ hl (hp.2.1 hw)⟩
  | start => exact ⟨hp, fun _ _ ↦ rfl⟩
  | @child α n w active job k h h' e p i hi hs ih =>
    obtain ⟨⟨Ws, Rs, hreg, hdisj⟩, hcont⟩ := hp
    obtain ⟨hconf, hframe⟩ := ih (hreg i).2.2.2
    refine ⟨⟨⟨Ws, Rs, fun j ↦ ⟨(hreg j).1, (hreg j).2.1, (hreg j).2.2.1, ?_⟩, hdisj⟩, hcont⟩,
      fun l hl ↦ hframe l fun hw ↦ hl ((hreg i).1 hw)⟩
    by_cases hj : j = i
    · subst hj
      simpa using hconf
    · simpa [hj] using (hreg j).2.2.2
  | join => exact ⟨hp.2 _, fun _ _ ↦ rfl⟩

/-- **One step back.** A step of a confined program, followed by an evaluation of what is left, is
an evaluation of the program. -/
theorem Step.eval (fp : Footprint sem rd wr) {p p' : Prog S ρ α} {h h' h'' : Loc → Val} {a : α}
    {e : Option (Event S (Loc → Val))} (hs : Step sem p h e p' h') (hp : p.Confined rd wr W R)
    (he : p'.Eval sem h' a h'') : p.Eval sem h a h'' := by
  induction hs generalizing h'' W R with
  | op h => exact ⟨_, _, h, he⟩
  | start => exact he
  | @child α n w active job k h h' e p i hi hs ih =>
    obtain ⟨rs, hs', h₁, hjob, hm, hk⟩ := he
    obtain ⟨⟨Ws, Rs, hreg, hdisj⟩, -⟩ := hp
    obtain ⟨hconf, hframe⟩ := hs.confined fp (hreg i).2.2.2
    have hi' : p.Eval sem h' (rs i) (hs' i) := by simpa using hjob i
    have hother : ∀ j, j ≠ i → (job j).Eval sem h' (rs j) (hs' j) := fun j hj ↦ by
      simpa [hj] using hjob j
    -- the siblings do not look at the region of the job that moved
    have hagree : ∀ j, j ≠ i → ∀ l ∈ Rs j, h l = h' l := fun j hj l hl ↦
      (hframe l fun hw ↦ Set.disjoint_left.mp (hdisj i j hj.symm) hw hl).symm
    have hmove : ∀ j, ∃ g, (job j).Eval sem h (rs j) g ∧ (j = i → g = hs' i) ∧
        (j ≠ i → (∀ l ∈ Rs j, g l = hs' j l) ∧ ∀ l ∉ Ws j, g l = h l) := by
      intro j
      by_cases hj : j = i
      · subst hj
        exact ⟨hs' j, ih (hreg j).2.2.2 hi', fun _ ↦ rfl, fun hne ↦ absurd rfl hne⟩
      · obtain ⟨g, hg, hin, hout⟩ := (hother j hj).move fp (hreg j).2.2.1 (hreg j).2.2.2
          (hagree j hj)
        exact ⟨g, hg, fun heq ↦ absurd heq hj, fun _ ↦ ⟨hin, hout⟩⟩
    choose gs hgs heq hne using hmove
    refine ⟨rs, gs, h₁, hgs, fun l ↦ ?_, hk⟩
    by_cases hl : l ∈ Ws i
    · -- only the job that moved changes this location
      have hnot : ∀ j, j ≠ i → l ∉ Ws j := fun j hj hw ↦
        Set.disjoint_left.mp (hdisj i j hj.symm) hl ((hreg j).2.2.1 hw)
      have hsame : ∀ j, j ≠ i → hs' j l = h' l := fun j hj ↦
        (hother j hj).frame fp (hreg j).2.2.2 l (hnot j hj)
      refine .inr ⟨i, ?_, fun j hj ↦ (hne j hj).2 l (hnot j hj)⟩
      rw [heq i rfl]
      rcases hm l with ⟨h₁l, hsl⟩ | ⟨j, h₁l, hsl⟩
      · rw [h₁l, hsl i]
      · by_cases hj : j = i
        · rw [h₁l, hj]
        · rw [h₁l, hsame j hj, hsl i (Ne.symm hj)]
    · have hgsl : ∀ j, gs j l = hs' j l := by
        intro j
        by_cases hj : j = i
        · subst hj
          rw [heq j rfl]
        · by_cases hw : l ∈ Ws j
          · exact (hne j hj).1 l ((hreg j).2.2.1 hw)
          · rw [(hne j hj).2 l hw, (hother j hj).frame fp (hreg j).2.2.2 l hw, hframe l hl]
      simpa only [hgsl, hframe l hl] using hm l
  | @join α n w active job k h rs hact hret =>
    refine ⟨rs, fun _ ↦ h, h, fun i ↦ ?_, fun l ↦ .inl ⟨rfl, fun _ ↦ rfl⟩, he⟩
    rw [hret i]
    exact ⟨rfl, rfl⟩

/-- **Serialization.** A finished run of a confined program is an evaluation of it. -/
theorem Run.eval (fp : Footprint sem rd wr) {p : Prog S ρ α} {h h' : Loc → Val} {a : α}
    {tr : List (Event S (Loc → Val))} (hr : Run sem (fun _ _ ↦ False) p h tr (.ret a) h')
    (hp : p.Confined rd wr W R) : p.Eval sem h a h' := by
  generalize hq : Prog.ret a = q at hr
  induction hr with
  | refl =>
    subst hq
    exact ⟨rfl, rfl⟩
  | env he => exact he.elim
  | step hs _ ih => exact hs.eval fp hp (ih (hs.confined fp hp).1 hq)

end Interleaving
