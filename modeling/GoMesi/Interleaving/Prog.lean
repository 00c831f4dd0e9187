import Mathlib

/-!
# Programs with shared effects and fork-join parallelism

A program is a tree of operations on a shared world, ended by a value. What an operation answers
is not part of the program: the world decides, so a program branches on every possible answer. A
parallel node holds a family of jobs that run side by side and a continuation that takes their
values once all of them have ended.

A running program is again a program. A parallel node carries which of its jobs a worker has
picked up and how far each of them has come, so one inductive type serves as syntax and as the
control state of a run.

Every program is well founded: whatever the world answers, a branch of the tree ends. That
is what makes termination of a run a fact about the tree alone.
-/

namespace Interleaving

/-- The operations a program may ask of the world, each with the type of its answers. -/
structure Signature where
  /-- The operations. -/
  Op : Type
  /-- The type of the answers to an operation. -/
  Res : Op → Type

/-- Programs over the operations of `S` whose jobs return values of type `ρ`. -/
inductive Prog (S : Signature) (ρ : Type) : Type → Type 1 where
  /-- The program has ended with a value. -/
  | ret {α : Type} (a : α) : Prog S ρ α
  /-- Ask the world for `o` and go on with its answer. -/
  | op {α : Type} (o : S.Op) (k : S.Res o → Prog S ρ α) : Prog S ρ α
  /-- Run the jobs on at most `w` workers, then go on with their values. A job is `active` from
  the moment a worker has picked it up. -/
  | par {α : Type} {n : ℕ} (w : ℕ) (active : Fin n → Bool) (job : Fin n → Prog S ρ ρ)
      (k : (Fin n → ρ) → Prog S ρ α) : Prog S ρ α

namespace Prog

variable {S : Signature} {ρ α β γ : Type}

/-- Go on with `f` after the program has ended. -/
def bind : {α : Type} → Prog S ρ α → (α → Prog S ρ β) → Prog S ρ β
  | _, ret a, f => f a
  | _, op o k, f => op o fun r ↦ (k r).bind f
  | _, par w active job k, f => par w active job fun rs ↦ (k rs).bind f

instance : Monad (Prog S ρ) where
  pure := ret
  bind := bind

/-- Ask for one operation and return its answer. -/
def call (o : S.Op) : Prog S ρ (S.Res o) := op o ret

/-- Hand the jobs to `w` workers that have not picked up any of them yet. -/
def fork {n : ℕ} (w : ℕ) (job : Fin n → Prog S ρ ρ) : Prog S ρ (Fin n → ρ) :=
  par w (fun _ ↦ false) job ret

/-- The value of a program that has ended. -/
def value? : {α : Type} → Prog S ρ α → Option α
  | _, ret a => some a
  | _, op _ _ => none
  | _, par _ _ _ _ => none

@[simp] theorem pure_eq (a : α) : (pure a : Prog S ρ α) = ret a := rfl

@[simp] theorem bind_eq (p : Prog S ρ α) (f : α → Prog S ρ β) : (p >>= f) = p.bind f := rfl

@[simp] theorem ret_bind (a : α) (f : α → Prog S ρ β) : (ret a).bind f = f a := rfl

@[simp] theorem op_bind (o : S.Op) (k : S.Res o → Prog S ρ α) (f : α → Prog S ρ β) :
    (op o k).bind f = op o fun r ↦ (k r).bind f := rfl

@[simp] theorem call_bind (o : S.Op) (f : S.Res o → Prog S ρ β) :
    (call o).bind f = op o f := rfl

@[simp] theorem par_bind {n : ℕ} (w : ℕ) (active : Fin n → Bool) (job : Fin n → Prog S ρ ρ)
    (k : (Fin n → ρ) → Prog S ρ α) (f : α → Prog S ρ β) :
    (par w active job k).bind f = par w active job fun rs ↦ (k rs).bind f := rfl

@[simp] theorem fork_bind {n : ℕ} (w : ℕ) (job : Fin n → Prog S ρ ρ)
    (f : (Fin n → ρ) → Prog S ρ β) :
    (fork w job).bind f = par w (fun _ ↦ false) job f := rfl

@[simp] theorem value?_ret (a : α) : (ret a : Prog S ρ α).value? = some a := rfl

@[simp] theorem value?_op (o : S.Op) (k : S.Res o → Prog S ρ α) :
    (op o k).value? = none := rfl

@[simp] theorem value?_par {n : ℕ} (w : ℕ) (active : Fin n → Bool) (job : Fin n → Prog S ρ ρ)
    (k : (Fin n → ρ) → Prog S ρ α) : (par w active job k).value? = none := rfl

theorem value?_eq_some_iff {p : Prog S ρ α} {a : α} : p.value? = some a ↔ p = ret a := by
  cases p with
  | ret b => simp
  | op o k => simp
  | par w active job k => simp

theorem bind_assoc (p : Prog S ρ α) (f : α → Prog S ρ β) (g : β → Prog S ρ γ) :
    (p.bind f).bind g = p.bind fun a ↦ (f a).bind g := by
  induction p with
  | ret a => rfl
  | op o k ih => simp only [op_bind, ih]
  | par w active job k _ ih => simp only [par_bind, ih]

theorem bind_ret (p : Prog S ρ α) : p.bind ret = p := by
  induction p with
  | ret a => rfl
  | op o k ih => simp only [op_bind, ih]
  | par w active job k _ ih => simp only [par_bind, ih]

/-! ## Possible values -/

/-- The program can end with the value `b` when its operations are answered as `C` allows. -/
def Ends (C : (o : S.Op) → S.Res o → Prop) : {α : Type} → Prog S ρ α → α → Prop
  | _, ret a, b => b = a
  | _, op o k, b => ∃ r, C o r ∧ (k r).Ends C b
  | _, par _ _ job k, b => ∃ rs, (∀ i, (job i).Ends C (rs i)) ∧ (k rs).Ends C b

variable {C : (o : S.Op) → S.Res o → Prop}

theorem ends_bind {p : Prog S ρ α} {f : α → Prog S ρ β} {b : β} :
    (p.bind f).Ends C b ↔ ∃ a, p.Ends C a ∧ (f a).Ends C b := by
  induction p with
  | ret a => simp [Ends]
  | op o k ih =>
    simp only [op_bind, Ends, ih]
    exact ⟨fun ⟨r, hr, a, ha, hb⟩ ↦ ⟨a, ⟨r, hr, ha⟩, hb⟩, fun ⟨a, ⟨r, hr, ha⟩, hb⟩ ↦ ⟨r, hr, a, ha, hb⟩⟩
  | par w active job k _ ih =>
    simp only [par_bind, Ends, ih]
    exact ⟨fun ⟨rs, hrs, a, ha, hb⟩ ↦ ⟨a, ⟨rs, hrs, ha⟩, hb⟩,
      fun ⟨a, ⟨rs, hrs, ha⟩, hb⟩ ↦ ⟨rs, hrs, a, ha, hb⟩⟩

/-- If every operation is answered, the program can end. -/
theorem exists_ends (hC : ∀ o, ∃ r, C o r) (p : Prog S ρ α) :
    ∃ b, p.Ends C b := by
  induction p with
  | ret a => exact ⟨a, rfl⟩
  | op o k ih =>
    obtain ⟨r, hr⟩ := hC o
    obtain ⟨b, hb⟩ := ih r
    exact ⟨b, r, hr, hb⟩
  | par w active job k ihjob ih =>
    choose rs hrs using ihjob
    obtain ⟨b, hb⟩ := ih rs
    exact ⟨b, rs, hrs, hb⟩

/-- The value of a program without parallel nodes, with the answers `f`. -/
def eval (f : (o : S.Op) → Option (S.Res o)) : {α : Type} → Prog S ρ α → Option α
  | _, ret a => some a
  | _, op o k =>
    match f o with
    | some r => (k r).eval f
    | none => none
  | _, par _ _ _ _ => none

theorem ends_of_eval {f : (o : S.Op) → Option (S.Res o)}
    (hf : ∀ o r, f o = some r → C o r) {p : Prog S ρ α} {a : α} (h : p.eval f = some a) :
    p.Ends C a := by
  induction p with
  | ret b => exact (Option.some.inj h).symm
  | op o k ih =>
    simp only [eval] at h
    split at h
    · exact ⟨_, hf _ _ ‹_›, ih _ h⟩
    · simp at h
  | par w active job k => simp [eval] at h

end Prog

end Interleaving
