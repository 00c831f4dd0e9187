import GoMesi.Interleaving.Run

/-!
# Worker pools

A parallel node of a program stands for a pool of workers. Here is the pool itself: a channel with
the jobs, workers that take jobs from it and send what comes out to a second channel, and a main
thread that starts the workers, puts the jobs into the first channel and closes it, collects from
the second channel, and waits for the workers. Both channels have room for all jobs. The main
thread stops collecting when it sees that the pool has been cancelled, which can happen any time.

A job is in line, with a worker, in the second channel, or received, and in one of these places
only. That is `WorkerPool.Inv`, and from it follow all properties of the pool: no send ever waits,
the main thread gets the value of every job once unless the pool is cancelled, and what the pool
does the parallel node does too (`WorkerPool.Run.of_returned`).
-/

namespace Interleaving

variable {S : Signature} {ρ σ : Type} {n w : ℕ}

/-! ## Workers and the main thread -/

/-- What a worker does. -/
inductive Worker (S : Signature) (ρ : Type) (n : ℕ) : Type 1
  /-- It has not been started. -/
  | idle
  /-- It receives from the channel of the jobs. -/
  | receiving
  /-- It runs a job, of which `p` is left. -/
  | running (i : Fin n) (p : Prog S ρ ρ)
  /-- It sends the value of a job. -/
  | sending (i : Fin n) (r : ρ)
  /-- It has ended. -/
  | done

namespace Worker

/-- The job a worker has. -/
def held : Worker S ρ n → Multiset (Fin n)
  | running i _ => {i}
  | sending i _ => {i}
  | _ => 0

/-- What a worker counts in the counter of those that have been started and have not ended. -/
def counted : Worker S ρ n → ℕ
  | idle => 0
  | done => 0
  | _ => 1

/-- How far a worker is from its end, but for the jobs. -/
def rank : Worker S ρ n → ℕ
  | done => 0
  | receiving => 1
  | idle => 2
  | sending _ _ => 2
  | running _ _ => 3

end Worker

/-- Change one worker: what is added up over all workers changes by what it adds up to. -/
theorem sum_update_add {X M : Type*} [AddCommMonoid M] (f : X → M) (worker : Fin w → X)
    (j : Fin w) (x : X) : ∑ j', f (Function.update worker j x j') + f (worker j) = ∑ j', f (worker j') + f x := by
  have hrest : ∑ j' ∈ Finset.univ.erase j, f (Function.update worker j x j') =
      ∑ j' ∈ Finset.univ.erase j, f (worker j') :=
    Finset.sum_congr rfl fun j' hj' ↦ by rw [Function.update_of_ne (Finset.ne_of_mem_erase hj')]
  rw [← Finset.sum_erase_add _ _ (Finset.mem_univ j),
    ← Finset.sum_erase_add _ (fun j' ↦ f (worker j')) (Finset.mem_univ j), hrest,
    Function.update_self, add_right_comm]

/-- What the main thread does. -/
inductive MainThread
  /-- It has started `k` workers. -/
  | starting (k : ℕ)
  /-- It has put `k` jobs into their channel. -/
  | feeding (k : ℕ)
  /-- It has received `k` values. -/
  | collecting (k : ℕ)
  /-- It waits for the workers to end. -/
  | waiting
  | returned

namespace MainThread

/-- How many of `w` workers have been started. -/
def begun (w : ℕ) : MainThread → ℕ
  | starting k => k
  | _ => w

/-- How many of `n` jobs have been put into their channel. -/
def fed (n : ℕ) : MainThread → ℕ
  | starting _ => 0
  | feeding k => k
  | _ => n

/-- Whether the channel of the jobs has been closed. -/
def closes : MainThread → Bool
  | starting _ => false
  | feeding _ => false
  | _ => true

/-- How many values the main thread has received. -/
def Counts (n : ℕ) (cancelled : Bool) (received : ℕ) : MainThread → Prop
  | starting _ => received = 0
  | feeding _ => received = 0
  | collecting k => received = k ∧ k ≤ n
  | _ => cancelled = true ∨ received = n

/-- How far the main thread is from its end. -/
def rank (n : ℕ) : MainThread → ℕ
  | starting _ => 2 * n + 4
  | feeding k => 2 * n - k + 3
  | collecting k => n - k + 2
  | waiting => 1
  | returned => 0

end MainThread

/-! ## The pool -/

/-- A pool of `w` workers for `n` jobs, in a world. Channels are in the order of receiving. -/
structure WorkerPool (S : Signature) (ρ σ : Type) (n w : ℕ) : Type 1 where
  main : MainThread
  worker : Fin w → Worker S ρ n
  /-- The channel of the jobs. -/
  jobs : List (Fin n)
  /-- Whether that channel is closed. -/
  closed : Bool
  /-- The channel of the values. -/
  ch : List (Fin n × ρ)
  /-- What the main thread has received. -/
  received : List (Fin n × ρ)
  /-- The counter of the workers that have been started and have not ended. -/
  wg : ℕ
  cancelled : Bool
  world : σ

namespace WorkerPool

/-- A pool in which nothing has happened yet. -/
def initial (S : Signature) (ρ : Type) {σ : Type} (n w : ℕ) (cancelled : Bool) (s : σ) :
    WorkerPool S ρ σ n w where
  main := .starting 0
  worker _ := .idle
  jobs := []
  closed := false
  ch := []
  received := []
  wg := 0
  cancelled := cancelled
  world := s

/-- A worker goes on. -/
def setWorker (s : WorkerPool S ρ σ n w) (j : Fin w) (x : Worker S ρ n) : WorkerPool S ρ σ n w :=
  { s with worker := Function.update s.worker j x }

section

variable (s : WorkerPool S ρ σ n w) (j : Fin w) (x : Worker S ρ n)

@[simp] theorem setWorker_main : (s.setWorker j x).main = s.main := rfl

@[simp] theorem setWorker_worker : (s.setWorker j x).worker = Function.update s.worker j x := rfl

@[simp] theorem setWorker_jobs : (s.setWorker j x).jobs = s.jobs := rfl

@[simp] theorem setWorker_closed : (s.setWorker j x).closed = s.closed := rfl

@[simp] theorem setWorker_ch : (s.setWorker j x).ch = s.ch := rfl

@[simp] theorem setWorker_received : (s.setWorker j x).received = s.received := rfl

@[simp] theorem setWorker_cancelled : (s.setWorker j x).cancelled = s.cancelled := rfl

end

/-- One step of the main thread or of a worker. A send waits for room in its channel and a receive
for a value, except that a receive from the closed channel of the jobs ends the worker when nothing
is left in it. -/
inductive Step (sem : (o : S.Op) → σ → S.Res o → σ → Prop) (body : Fin n → Prog S ρ ρ)
    (s : WorkerPool S ρ σ n w) : Option (Event S σ) → WorkerPool S ρ σ n w → Prop
  | start (j : Fin w) (hmain : s.main = .starting j) :
      Step sem body s none
        { s.setWorker j .receiving with main := .starting (j + 1), wg := s.wg + 1 }
  | started (hmain : s.main = .starting w) :
      Step sem body s none { s with main := .feeding 0 }
  | feed (i : Fin n) (hmain : s.main = .feeding i) (hroom : s.jobs.length < n) :
      Step sem body s none { s with main := .feeding (i + 1), jobs := s.jobs ++ [i] }
  | close (hmain : s.main = .feeding n) :
      Step sem body s none { s with main := .collecting 0, closed := true }
  | receive (j : Fin w) {i : Fin n} {rest : List (Fin n)} (hj : s.worker j = .receiving)
      (hjobs : s.jobs = i :: rest) :
      Step sem body s none { s.setWorker j (.running i (body i)) with jobs := rest }
  | exit (j : Fin w) (hj : s.worker j = .receiving) (hjobs : s.jobs = [])
      (hclosed : s.closed = true) :
      Step sem body s none { s.setWorker j .done with wg := s.wg - 1 }
  | run (j : Fin w) {i : Fin n} {p p' : Prog S ρ ρ} {e : Option (Event S σ)} {t : σ}
      (hj : s.worker j = .running i p) (h : Interleaving.Step sem p s.world e p' t) :
      Step sem body s e { s.setWorker j (.running i p') with world := t }
  | finish (j : Fin w) {i : Fin n} {r : ρ} (hj : s.worker j = .running i (.ret r)) :
      Step sem body s none (s.setWorker j (.sending i r))
  | send (j : Fin w) {i : Fin n} {r : ρ} (hj : s.worker j = .sending i r)
      (hroom : s.ch.length < n) :
      Step sem body s none { s.setWorker j .receiving with ch := s.ch ++ [(i, r)] }
  | collect {k : ℕ} {x : Fin n × ρ} {rest : List (Fin n × ρ)} (hmain : s.main = .collecting k)
      (hk : k < n) (hch : s.ch = x :: rest) :
      Step sem body s none
        { s with main := .collecting (k + 1), ch := rest, received := s.received ++ [x] }
  | break_ {k : ℕ} (hmain : s.main = .collecting k) (hk : k < n)
      (hcancelled : s.cancelled = true) : Step sem body s none { s with main := .waiting }
  | collected (hmain : s.main = .collecting n) :
      Step sem body s none { s with main := .waiting }
  | return_ (hmain : s.main = .waiting) (hwg : s.wg = 0) :
      Step sem body s none { s with main := .returned }

/-- What happens to a pool from outside: the world moves, or the pool is cancelled. -/
inductive Outside (env : σ → σ → Prop) (s : WorkerPool S ρ σ n w) : WorkerPool S ρ σ n w → Prop
  | env {t : σ} (h : env s.world t) : Outside env s { s with world := t }
  | cancel : Outside env s { s with cancelled := true }

/-- A run of a pool, with the events of its jobs in order. -/
inductive Run (sem : (o : S.Op) → σ → S.Res o → σ → Prop) (env : σ → σ → Prop)
    (body : Fin n → Prog S ρ ρ) :
    WorkerPool S ρ σ n w → List (Event S σ) → WorkerPool S ρ σ n w → Prop
  | refl {s : WorkerPool S ρ σ n w} : Run sem env body s [] s
  | outside {s s' t : WorkerPool S ρ σ n w} {tr : List (Event S σ)} (h : Outside env s s')
      (hr : Run sem env body s' tr t) : Run sem env body s tr t
  | step {s s' t : WorkerPool S ρ σ n w} {e : Option (Event S σ)} {tr : List (Event S σ)}
      (h : Step sem body s e s') (hr : Run sem env body s' tr t) :
      Run sem env body s (e.toList ++ tr) t

/-! ## The invariant -/

/-- The jobs with numbers below `k`. -/
def below (n k : ℕ) : Finset (Fin n) := Finset.univ.filter fun i ↦ i.val < k

theorem below_succ (i : Fin n) : (below n (i + 1)).val = {i} + (below n i).val := by
  have hi : i ∉ below n i := by simp [below]
  have hinsert : below n (i + 1) = insert i (below n i) := by
    ext j
    simp only [below, Finset.mem_filter, Finset.mem_univ, true_and, Finset.mem_insert, Fin.ext_iff]
    omega
  rw [hinsert, Finset.insert_val, Multiset.ndinsert_of_notMem hi, Multiset.singleton_add]

/-- What a worker knows of the main thread, of the channel of the jobs, and of its job. -/
def Fits (s : WorkerPool S ρ σ n w) (job : Fin n → Prog S ρ ρ) (j : Fin w) : Worker S ρ n → Prop
  | .idle => s.main.begun w ≤ j
  | .receiving => j < s.main.begun w
  | .running i p => j < s.main.begun w ∧ job i = p
  | .sending i r => j < s.main.begun w ∧ job i = .ret r
  | .done => j < s.main.begun w ∧ s.closed = true ∧ s.jobs = []

/-- The first `taken` jobs have been taken by workers, and of each job `job` is left. -/
structure Inv (body : Fin n → Prog S ρ ρ) (s : WorkerPool S ρ σ n w) (taken : ℕ)
    (job : Fin n → Prog S ρ ρ) : Prop where
  begun_le : s.main.begun w ≤ w
  fed_le : s.main.fed n ≤ n
  taken_le : taken ≤ s.main.fed n
  closed : s.closed = s.main.closes
  /-- The jobs in line are those that have been put into the channel and not been taken. -/
  jobs : s.jobs = ((List.finRange n).take (s.main.fed n)).drop taken
  /-- A job that has been taken is in one place. -/
  places : ∑ j, (s.worker j).held + ↑(s.ch.map Prod.fst) + ↑(s.received.map Prod.fst) =
    (below n taken).val
  fresh : ∀ i, taken ≤ i.val → job i = body i
  worker : ∀ j, s.Fits job j (s.worker j)
  sent : ∀ x, x ∈ s.ch ∨ x ∈ s.received → job x.1 = .ret x.2
  wg : s.wg = ∑ j, (s.worker j).counted
  received : s.main.Counts n s.cancelled s.received.length
  returned : s.main = .returned → ∀ j, s.worker j = .done

namespace Inv

variable {sem : (o : S.Op) → σ → S.Res o → σ → Prop} {body : Fin n → Prog S ρ ρ}
  {s s' : WorkerPool S ρ σ n w} {taken : ℕ} {job : Fin n → Prog S ρ ρ} {j : Fin w} {i : Fin n}

theorem of_initial (cancelled : Bool) (t : σ) :
    Inv body (initial S ρ n w cancelled t) 0 body where
  begun_le := Nat.zero_le _
  fed_le := Nat.zero_le _
  taken_le := le_rfl
  closed := rfl
  jobs := rfl
  places := by simp [initial, Worker.held, below]
  fresh _ _ := rfl
  worker j := Nat.zero_le j
  sent x hx := by simp [initial] at hx
  wg := by simp [initial, Worker.counted]
  received := rfl
  returned hmain := by cases hmain

/-- The job that is first in line. -/
theorem eq_taken (h : Inv body s taken job) {rest : List (Fin n)} (hjobs : s.jobs = i :: rest) :
    taken = i ∧ taken < s.main.fed n ∧
      rest = ((List.finRange n).take (s.main.fed n)).drop (taken + 1) := by
  rw [h.jobs] at hjobs
  have hlt : taken < ((List.finRange n).take (s.main.fed n)).length := by
    by_contra hge
    rw [List.drop_eq_nil_of_le (not_lt.mp hge)] at hjobs
    cases hjobs
  rw [List.drop_eq_getElem_cons hlt] at hjobs
  obtain ⟨hi, hrest⟩ := List.cons.inj hjobs
  refine ⟨by simp [← hi], ?_, hrest.symm⟩
  simp only [List.length_take, List.length_finRange] at hlt
  omega

/-- All jobs have been taken when the channel is closed and empty. -/
theorem taken_eq (h : Inv body s taken job) (hclosed : s.closed = true) (hjobs : s.jobs = []) :
    taken = n := by
  have hfed : s.main.fed n = n := by
    rw [h.closed] at hclosed
    cases hmain : s.main <;> simp_all [MainThread.closes, MainThread.fed]
  have htaken := h.taken_le
  have hdrop := h.jobs
  rw [hjobs, eq_comm, List.drop_eq_nil_iff] at hdrop
  simp only [List.length_take, List.length_finRange] at hdrop
  omega

theorem nodup_places (h : Inv body s taken job) :
    (∑ j, (s.worker j).held + ↑(s.ch.map Prod.fst) + ↑(s.received.map Prod.fst)).Nodup := by
  rw [h.places]
  exact (below n taken).nodup

/-- A job that a worker has is nowhere else. -/
theorem held_only (h : Inv body s taken job) (hi : i ∈ (s.worker j).held) :
    i.val < taken ∧ (∀ j' ≠ j, i ∉ (s.worker j').held) ∧
      ∀ x, x ∈ s.ch ∨ x ∈ s.received → x.1 ≠ i := by
  have hsum : i ∈ ∑ j, (s.worker j).held := Multiset.mem_sum.mpr ⟨j, Finset.mem_univ j, hi⟩
  have hnodup := h.nodup_places
  rw [add_assoc, Multiset.nodup_add] at hnodup
  obtain ⟨hheld, -, hdisjoint⟩ := hnodup
  refine ⟨?_, fun j' hj' hi' ↦ ?_, fun x hx heq ↦ ?_⟩
  · have hmem : i ∈ (below n taken).val := by
      rw [← h.places, add_assoc]
      exact Multiset.mem_add.mpr (.inl hsum)
    simpa [below] using hmem
  · -- without what the worker has, its job would still be there
    have hupdate := (sum_update_add Worker.held s.worker j .idle).trans (add_zero _)
    rw [← hupdate, Multiset.nodup_add] at hheld
    refine Multiset.disjoint_left.mp hheld.2.2 (Multiset.mem_sum.mpr ⟨j', Finset.mem_univ j', ?_⟩) hi
    rwa [Function.update_of_ne hj']
  · refine Multiset.disjoint_left.mp hdisjoint hsum ?_
    rw [Multiset.mem_add, Multiset.mem_coe, Multiset.mem_coe, List.mem_map, List.mem_map]
    exact hx.imp (fun hx ↦ ⟨x, hx, heq⟩) fun hx ↦ ⟨x, hx, heq⟩

/-- While a worker waits for a job, fewer than `w` jobs are busy. -/
theorem card_busy_lt (h : Inv body s taken job) (hj : s.worker j = .receiving) :
    (Prog.busy (fun i : Fin n ↦ decide (i.val < taken)) job).card < w := by
  have hsub : (Prog.busy (fun i : Fin n ↦ decide (i.val < taken)) job).val ≤
      ∑ j, (s.worker j).held := by
    refine (Multiset.le_iff_subset (Finset.nodup _)).mpr fun i hi ↦ ?_
    obtain ⟨-, htaken, hvalue⟩ := Finset.mem_filter.mp (Finset.mem_val.mp hi)
    have hmem : i ∈ (below n taken).val := by simpa [below] using htaken
    rw [← h.places, add_assoc, Multiset.mem_add] at hmem
    refine hmem.resolve_right fun hsent ↦ ?_
    rw [Multiset.mem_add, Multiset.mem_coe, Multiset.mem_coe, List.mem_map, List.mem_map] at hsent
    have hret : ∃ r, job i = .ret r := by
      rcases hsent with ⟨x, hx, rfl⟩ | ⟨x, hx, rfl⟩
      · exact ⟨x.2, h.sent x (.inl hx)⟩
      · exact ⟨x.2, h.sent x (.inr hx)⟩
    obtain ⟨r, hr⟩ := hret
    simp [hr] at hvalue
  calc (Prog.busy (fun i : Fin n ↦ decide (i.val < taken)) job).card
      ≤ (∑ j, (s.worker j).held).card := Multiset.card_le_card hsub
    _ = ∑ j, (s.worker j).held.card := map_sum Multiset.cardHom _ _
    _ < ∑ _j : Fin w, 1 := Finset.sum_lt_sum
        (fun j _ ↦ by cases s.worker j <;> simp [Worker.held])
        ⟨j, Finset.mem_univ j, by simp [hj, Worker.held]⟩
    _ = w := by simp

/-! ### Steps of the main thread -/

/-- The main thread goes on, and the channels and the workers stay as they are. -/
theorem of_main (h : Inv body s taken job) {main : MainThread} {closed : Bool}
    (hbegun : main.begun w = s.main.begun w) (hfed : main.fed n = s.main.fed n)
    (hclosed : closed = main.closes) (hopen : s.closed = true → closed = true)
    (hreceived : main.Counts n s.cancelled s.received.length)
    (hreturned : main = .returned → ∀ j, s.worker j = .done) :
    Inv body { s with main := main, closed := closed } taken job where
  begun_le := hbegun.trans_le h.begun_le
  fed_le := hfed.trans_le h.fed_le
  taken_le := h.taken_le.trans_eq hfed.symm
  closed := hclosed
  jobs := by
    dsimp only
    rw [hfed]
    exact h.jobs
  places := h.places
  fresh := h.fresh
  worker j := by
    have hj := h.worker j
    dsimp only
    cases hworker : s.worker j <;> rw [hworker] at hj <;> simp only [Fits, hbegun] at hj ⊢
    · exact hj
    · exact hj
    · exact hj
    · exact hj
    · exact ⟨hj.1, hopen hj.2.1, hj.2.2⟩
  sent := h.sent
  wg := h.wg
  received := hreceived
  returned := hreturned

/-- The worker that is started next is idle. -/
theorem idle_of_starting (h : Inv body s taken job) (hmain : s.main = .starting j) :
    s.worker j = .idle := by
  have hj := h.worker j
  cases hworker : s.worker j <;> rw [hworker] at hj <;> simp_all [Fits, MainThread.begun]

/-- When the counter is zero, all workers have ended. -/
theorem done_of_wg (h : Inv body s taken job) (hbegun : s.main.begun w = w) (hwg : s.wg = 0)
    (j : Fin w) : s.worker j = .done := by
  have hcounted : (s.worker j).counted = 0 :=
    Finset.sum_eq_zero_iff.mp (h.wg.symm.trans hwg) j (Finset.mem_univ j)
  have hj := h.worker j
  cases hworker : s.worker j <;> rw [hworker] at hj hcounted
  · exact absurd (hbegun.symm.trans_le hj) (not_le.mpr j.isLt)
  · cases hcounted
  · cases hcounted
  · cases hcounted

theorem start (h : Inv body s taken job) (hmain : s.main = .starting j) :
    Inv body { s.setWorker j .receiving with main := .starting (j + 1), wg := s.wg + 1 }
      taken job := by
  have hidle := h.idle_of_starting hmain
  have hheld := sum_update_add Worker.held s.worker j .receiving
  have hcounted := sum_update_add Worker.counted s.worker j .receiving
  rw [hidle] at hheld hcounted
  refine ⟨j.isLt, Nat.zero_le _, ?_, ?_, ?_, ?_, h.fresh, ?_, h.sent, ?_, ?_, fun hmain ↦ ?_⟩
  · simpa [hmain, MainThread.fed] using h.taken_le
  · simpa [hmain, MainThread.closes] using h.closed
  · simpa [hmain, MainThread.fed] using h.jobs
  · rw [← h.places]
    exact congrArg (· + _ + _) ((add_zero _).symm.trans (hheld.trans (add_zero _)))
  · refine (Function.forall_update_iff _ _).mpr ⟨Nat.lt_succ_self _, fun j' hj' ↦ ?_⟩
    have hfits := h.worker j'
    have hne : (j' : ℕ) ≠ j := fun heq ↦ hj' (Fin.ext heq)
    cases hworker : s.worker j' <;> rw [hworker] at hfits <;>
      simp only [Fits, hmain, MainThread.begun] at hfits ⊢
    · omega
    · omega
    · exact ⟨by omega, hfits.2⟩
    · exact ⟨by omega, hfits.2⟩
    · exact ⟨by omega, hfits.2⟩
  · exact (congrArg (· + 1) h.wg).trans hcounted.symm
  · simpa [hmain, MainThread.Counts] using h.received
  · cases hmain

theorem feed (h : Inv body s taken job) (hmain : s.main = .feeding i) :
    Inv body { s with main := .feeding (i + 1), jobs := s.jobs ++ [i] } taken job := by
  have hopen : s.closed = false := by simp [h.closed, hmain, MainThread.closes]
  have htaken : taken ≤ i := by simpa [hmain, MainThread.fed] using h.taken_le
  have hjobs := h.jobs
  rw [hmain, MainThread.fed] at hjobs
  refine ⟨le_rfl, i.isLt, ?_, hopen, ?_, h.places, h.fresh, fun j ↦ ?_, h.sent, h.wg, ?_,
    fun hmain ↦ ?_⟩
  · exact htaken.trans (Nat.le_succ _)
  · show s.jobs ++ [i] = ((List.finRange n).take (i + 1)).drop taken
    have hlen : taken ≤ ((List.finRange n).take i).length := by
      simp only [List.length_take, List.length_finRange]
      omega
    rw [hjobs, List.take_succ_eq_append_getElem (by simp), List.drop_append_of_le_length hlen]
    simp
  · have hfits := h.worker j
    dsimp only
    cases hworker : s.worker j <;> rw [hworker] at hfits <;>
      simp_all [Fits, MainThread.begun]
  · simpa [hmain, MainThread.Counts] using h.received
  · cases hmain

theorem collect (h : Inv body s taken job) {k : ℕ} {x : Fin n × ρ} {rest : List (Fin n × ρ)}
    (hmain : s.main = .collecting k) (hk : k < n) (hch : s.ch = x :: rest) :
    Inv body { s with main := .collecting (k + 1), ch := rest, received := s.received ++ [x] }
      taken job := by
  have hreceived := h.received
  rw [hmain] at hreceived
  refine ⟨le_rfl, le_rfl, ?_, ?_, ?_, ?_, h.fresh, fun j ↦ ?_, fun y hy ↦ h.sent y ?_, h.wg, ?_,
    fun hmain ↦ ?_⟩
  · simpa [hmain, MainThread.fed] using h.taken_le
  · simpa [hmain, MainThread.closes] using h.closed
  · simpa [hmain, MainThread.fed] using h.jobs
  · have hmoved : (↑(rest.map Prod.fst) : Multiset (Fin n)) + ↑((s.received ++ [x]).map Prod.fst) =
        ↑((x :: rest).map Prod.fst) + ↑(s.received.map Prod.fst) := by
      rw [List.map_append, List.map_singleton, ← Multiset.coe_add, Multiset.coe_singleton,
        List.map_cons, ← Multiset.cons_coe, ← Multiset.singleton_add]
      abel
    rw [← h.places, hch, add_assoc, add_assoc, ← hmoved]
  · have hfits := h.worker j
    dsimp only
    cases hworker : s.worker j <;> rw [hworker] at hfits <;>
      simp_all [Fits, MainThread.begun]
  · rw [hch, List.mem_cons]
    simp only [List.mem_append, List.mem_singleton] at hy
    tauto
  · exact ⟨by simp [hreceived.1], hk⟩
  · cases hmain

/-! ### Steps of a worker -/

theorem not_returned (h : Inv body s taken job) (hj : s.worker j ≠ .done) :
    s.main ≠ .returned := fun hmain ↦ hj (h.returned hmain j)

/-- A worker goes on, and the main thread stays where it is. The other workers keep what they know
of their jobs. -/
theorem of_worker (h : Inv body s taken job) {x : Worker S ρ n} {jobs : List (Fin n)}
    {ch : List (Fin n × ρ)} {taken' wg : ℕ} {job' : Fin n → Prog S ρ ρ} {t : σ}
    (hj : s.worker j ≠ .done) (htaken : taken' ≤ s.main.fed n)
    (hjobs : jobs = ((List.finRange n).take (s.main.fed n)).drop taken')
    (hplaces : ∑ j', (Function.update s.worker j x j').held + ↑(ch.map Prod.fst) +
      ↑(s.received.map Prod.fst) = (below n taken').val)
    (hfresh : ∀ i, taken' ≤ i.val → job' i = body i)
    (hx : Fits { s with jobs := jobs } job' j x)
    (hother : ∀ j' ≠ j, Fits { s with jobs := jobs } job' j' (s.worker j'))
    (hsent : ∀ y, y ∈ ch ∨ y ∈ s.received → job' y.1 = .ret y.2)
    (hwg : wg + (s.worker j).counted = s.wg + x.counted) :
    Inv body { s.setWorker j x with jobs := jobs, ch := ch, wg := wg, world := t } taken' job' where
  begun_le := h.begun_le
  fed_le := h.fed_le
  taken_le := htaken
  closed := h.closed
  jobs := hjobs
  places := hplaces
  fresh := hfresh
  worker := (Function.forall_update_iff _ _).mpr ⟨hx, hother⟩
  sent := hsent
  wg := by
    have hcounted := sum_update_add Worker.counted s.worker j x
    have := h.wg
    dsimp only [setWorker_worker]
    omega
  received := h.received
  returned hmain := absurd hmain (h.not_returned hj)

theorem receive (h : Inv body s taken job) {rest : List (Fin n)} (hj : s.worker j = .receiving)
    (hjobs : s.jobs = i :: rest) :
    Inv body { s.setWorker j (.running i (body i)) with jobs := rest } (taken + 1) job := by
  obtain ⟨hi, hlt, hrest⟩ := h.eq_taken hjobs
  have hheld := sum_update_add Worker.held s.worker j (.running i (body i))
  rw [hj] at hheld
  have hfits := h.worker j
  rw [hj] at hfits
  refine h.of_worker (by simp [hj]) hlt hrest ?_ (fun i' hi' ↦ h.fresh i' (by omega)) ?_
    (fun j' _ ↦ ?_) h.sent (by rw [hj]; rfl)
  · have hsum : ∑ j', (Function.update s.worker j (.running i (body i)) j').held =
        ∑ j', (s.worker j').held + {i} := (add_zero _).symm.trans hheld
    rw [hsum, hi, below_succ, ← hi, ← h.places, setWorker_ch]
    abel
  · exact ⟨hfits, h.fresh i hi.le⟩
  · have hfits' := h.worker j'
    cases hworker : s.worker j' <;> rw [hworker] at hfits' <;> simp_all [Fits]

theorem exit (h : Inv body s taken job) (hj : s.worker j = .receiving) (hjobs : s.jobs = [])
    (hclosed : s.closed = true) :
    Inv body { s.setWorker j .done with wg := s.wg - 1 } taken job := by
  have hheld := sum_update_add Worker.held s.worker j .done
  have hcounted := sum_update_add Worker.counted s.worker j .done
  rw [hj] at hheld hcounted
  have hfits := h.worker j
  rw [hj] at hfits
  refine h.of_worker (by simp [hj]) h.taken_le h.jobs ?_ h.fresh ⟨hfits, hclosed, hjobs⟩
    (fun j' _ ↦ h.worker j') h.sent ?_
  · rw [← h.places]
    exact congrArg (· + _ + _) ((add_zero _).symm.trans (hheld.trans (add_zero _)))
  · have hpos : 0 < s.wg := by
      rw [h.wg]
      exact Nat.lt_of_lt_of_eq (Nat.succ_pos _) hcounted
    rw [hj]
    simp only [Worker.counted]
    omega

theorem run (h : Inv body s taken job) {p p' : Prog S ρ ρ} {t : σ}
    (hj : s.worker j = .running i p) :
    Inv body { s.setWorker j (.running i p') with world := t } taken
      (Function.update job i p') := by
  have hheld := sum_update_add Worker.held s.worker j (.running i p')
  rw [hj] at hheld
  have hfits := h.worker j
  rw [hj] at hfits
  obtain ⟨htaken, hothers, hsent⟩ := h.held_only (j := j) (i := i) (by simp [hj, Worker.held])
  refine h.of_worker (by simp [hj]) h.taken_le h.jobs ?_ (fun i' hi' ↦ ?_) ⟨hfits.1, by simp⟩
    (fun j' hj' ↦ ?_) (fun y hy ↦ ?_) (by rw [hj]; rfl)
  · rw [← h.places]
    exact congrArg (· + _ + _) (add_right_cancel hheld)
  · rw [Function.update_of_ne fun heq ↦ by omega]
    exact h.fresh i' hi'
  · have hfits' := h.worker j'
    have hne := hothers j' hj'
    cases hworker : s.worker j' <;> rw [hworker] at hfits' hne
    · exact hfits'
    · exact hfits'
    · rw [Worker.held, Multiset.mem_singleton] at hne
      exact ⟨hfits'.1, by rw [Function.update_of_ne (Ne.symm hne)]; exact hfits'.2⟩
    · rw [Worker.held, Multiset.mem_singleton] at hne
      exact ⟨hfits'.1, by rw [Function.update_of_ne (Ne.symm hne)]; exact hfits'.2⟩
    · exact hfits'
  · rw [Function.update_of_ne (hsent y hy)]
    exact h.sent y hy

theorem finish (h : Inv body s taken job) {r : ρ} (hj : s.worker j = .running i (.ret r)) :
    Inv body (s.setWorker j (.sending i r)) taken job := by
  have hheld := sum_update_add Worker.held s.worker j (.sending i r)
  rw [hj] at hheld
  have hfits := h.worker j
  rw [hj] at hfits
  refine h.of_worker (by simp [hj]) h.taken_le h.jobs ?_ h.fresh hfits (fun j' _ ↦ h.worker j')
    h.sent (by rw [hj]; rfl)
  rw [← h.places]
  exact congrArg (· + _ + _) (add_right_cancel hheld)

theorem send (h : Inv body s taken job) {r : ρ} (hj : s.worker j = .sending i r) :
    Inv body { s.setWorker j .receiving with ch := s.ch ++ [(i, r)] } taken job := by
  have hheld := sum_update_add Worker.held s.worker j .receiving
  rw [hj] at hheld
  have hfits := h.worker j
  rw [hj] at hfits
  refine h.of_worker (by simp [hj]) h.taken_le h.jobs ?_ h.fresh hfits.1
    (fun j' _ ↦ h.worker j') (fun y hy ↦ ?_) (by rw [hj]; rfl)
  · have hsum : ∑ j', (Function.update s.worker j .receiving j').held + {i} =
        ∑ j', (s.worker j').held := hheld.trans (add_zero _)
    rw [← h.places, ← hsum, List.map_append, List.map_singleton, ← Multiset.coe_add,
      Multiset.coe_singleton]
    abel
  · simp only [List.mem_append, List.mem_singleton] at hy
    rcases hy with (hy | rfl) | hy
    · exact h.sent y (.inl hy)
    · exact hfits.2
    · exact h.sent y (.inr hy)

end Inv

/-! ## The parallel node -/

/-- The parallel node whose first `taken` jobs have been picked up. -/
def node {α : Type} (w taken : ℕ) (job : Fin n → Prog S ρ ρ) (k : (Fin n → ρ) → Prog S ρ α) :
    Prog S ρ α :=
  .par w (fun i ↦ decide (i.val < taken)) job k

/-- How far a pool is from its end, but for the jobs. -/
def rank (s : WorkerPool S ρ σ n w) : ℕ := s.main.rank n + ∑ j, (s.worker j).rank

variable {sem : (o : S.Op) → σ → S.Res o → σ → Prop} {env : σ → σ → Prop}
  {body : Fin n → Prog S ρ ρ} {s s' t : WorkerPool S ρ σ n w} {taken : ℕ}
  {job : Fin n → Prog S ρ ρ}

theorem rank_main_lt {main : MainThread} (h : main.rank n < s.main.rank n) (closed : Bool)
    (jobs : List (Fin n)) (ch received : List (Fin n × ρ)) :
    rank { s with main := main, closed := closed, jobs := jobs, ch := ch, received := received } <
      s.rank :=
  Nat.add_lt_add_right h _

theorem rank_setWorker_lt {j : Fin w} {x : Worker S ρ n} (h : x.rank < (s.worker j).rank) :
    (s.setWorker j x).rank < s.rank := by
  have hsum := sum_update_add Worker.rank s.worker j x
  dsimp only [rank, setWorker_main, setWorker_worker]
  omega

/-- **One step.** A step of a pool keeps the invariant. It is a step of the parallel node, or the
pool comes closer to its end and the parallel node stays where it is. -/
theorem Inv.step (h : Inv body s taken job) {e : Option (Event S σ)}
    (hs : Step sem body s e s') :
    ∃ taken' job', Inv body s' taken' job' ∧
      ((∀ {α : Type} (k : (Fin n → ρ) → Prog S ρ α), Interleaving.Step sem (node w taken job k)
          s.world e (node w taken' job' k) s'.world) ∨
        (e = none ∧ taken' = taken ∧ job' = job ∧ s'.world = s.world ∧ s'.rank < s.rank)) := by
  cases hs with
  | start j hmain =>
    have hidle := h.idle_of_starting hmain
    refine ⟨taken, job, h.start hmain, .inr ⟨rfl, rfl, rfl, rfl, ?_⟩⟩
    have hrank := rank_setWorker_lt (s := s) (j := j) (x := .receiving)
      (by simp [hidle, Worker.rank])
    have hstay : MainThread.rank n (.starting (j + 1)) = s.main.rank n := by rw [hmain]; rfl
    exact (congrArg (· + _) hstay).trans_lt hrank
  | started hmain =>
    have hreceived := h.received
    rw [hmain] at hreceived
    refine ⟨taken, job, h.of_main (by simp [hmain, MainThread.begun])
      (by simp [hmain, MainThread.fed]) (by simp [h.closed, hmain, MainThread.closes])
      id hreceived (by simp), .inr ⟨rfl, rfl, rfl, rfl, rank_main_lt ?_ ..⟩⟩
    simp only [hmain, MainThread.rank]
    omega
  | feed i hmain hroom =>
    refine ⟨taken, job, h.feed hmain, .inr ⟨rfl, rfl, rfl, rfl, rank_main_lt ?_ ..⟩⟩
    simp only [hmain, MainThread.rank]
    omega
  | close hmain =>
    have hreceived := h.received
    rw [hmain] at hreceived
    refine ⟨taken, job, h.of_main (by simp [hmain, MainThread.begun])
      (by simp [hmain, MainThread.fed]) rfl (fun _ ↦ rfl) ⟨hreceived, Nat.zero_le _⟩ (by simp),
      .inr ⟨rfl, rfl, rfl, rfl, rank_main_lt ?_ ..⟩⟩
    simp only [hmain, MainThread.rank]
    omega
  | @receive j i rest hj hjobs =>
    obtain ⟨hi, -⟩ := h.eq_taken hjobs
    refine ⟨taken + 1, job, h.receive hj hjobs, .inl fun k ↦ ?_⟩
    have hactive : (fun i' : Fin n ↦ decide (i'.val < taken + 1)) =
        Function.update (fun i' : Fin n ↦ decide (i'.val < taken)) i true := by
      funext i'
      by_cases hi' : i' = i
      · subst hi'
        simp [hi]
      · have hne : i'.val ≠ taken := fun heq ↦ hi' (Fin.ext (heq.trans hi))
        rw [Function.update_of_ne hi', decide_eq_decide]
        omega
    rw [node, node, hactive]
    exact .start i (by simp [hi]) (fun i' hi' ↦ by simpa [hi] using hi') (h.card_busy_lt hj)
  | exit j hj hjobs hclosed =>
    refine ⟨taken, job, h.exit hj hjobs hclosed, .inr ⟨rfl, rfl, rfl, rfl, ?_⟩⟩
    exact rank_setWorker_lt (s := s) (j := j) (by simp [hj, Worker.rank])
  | @run j i p p' e t hj hs =>
    have hfits := h.worker j
    rw [hj] at hfits
    have htaken := (h.held_only (j := j) (i := i) (by simp [hj, Worker.held])).1
    refine ⟨taken, _, h.run hj, .inl fun k ↦ .child i (by simpa using htaken) ?_⟩
    rw [hfits.2]
    exact hs
  | finish j hj =>
    exact ⟨taken, job, h.finish hj, .inr ⟨rfl, rfl, rfl, rfl,
      rank_setWorker_lt (by simp [hj, Worker.rank])⟩⟩
  | send j hj hroom =>
    refine ⟨taken, job, h.send hj, .inr ⟨rfl, rfl, rfl, rfl, ?_⟩⟩
    exact rank_setWorker_lt (s := s) (j := j) (by simp [hj, Worker.rank])
  | collect hmain hk hch =>
    refine ⟨taken, job, h.collect hmain hk hch, .inr ⟨rfl, rfl, rfl, rfl, rank_main_lt ?_ ..⟩⟩
    simp only [hmain, MainThread.rank]
    omega
  | break_ hmain hk hcancelled =>
    refine ⟨taken, job, h.of_main (by simp [hmain, MainThread.begun])
      (by simp [hmain, MainThread.fed]) (by simp [h.closed, hmain, MainThread.closes])
      id (.inl hcancelled) (by simp), .inr ⟨rfl, rfl, rfl, rfl, rank_main_lt ?_ ..⟩⟩
    simp only [hmain, MainThread.rank]
    omega
  | collected hmain =>
    have hreceived := h.received
    rw [hmain] at hreceived
    refine ⟨taken, job, h.of_main (by simp [hmain, MainThread.begun])
      (by simp [hmain, MainThread.fed]) (by simp [h.closed, hmain, MainThread.closes])
      id (.inr hreceived.1) (by simp), .inr ⟨rfl, rfl, rfl, rfl, rank_main_lt ?_ ..⟩⟩
    simp only [hmain, MainThread.rank]
    omega
  | return_ hmain hwg =>
    have hreceived := h.received
    rw [hmain] at hreceived
    refine ⟨taken, job, h.of_main (by simp [hmain, MainThread.begun])
      (by simp [hmain, MainThread.fed]) (by simp [h.closed, hmain, MainThread.closes])
      id hreceived fun _ ↦ h.done_of_wg (by simp [hmain, MainThread.begun]) hwg,
      .inr ⟨rfl, rfl, rfl, rfl, rank_main_lt ?_ ..⟩⟩
    simp only [hmain, MainThread.rank]
    omega

/-! ## Runs -/

theorem Inv.outside (h : Inv body s taken job) (hs : Outside env s s') :
    Inv body s' taken job ∧ s'.rank = s.rank := by
  cases hs with
  | env => exact ⟨{ h with }, rfl⟩
  | cancel =>
    refine ⟨{ h with received := ?_ }, rfl⟩
    have hreceived := h.received
    dsimp only
    cases hmain : s.main <;> rw [hmain] at hreceived
    · exact hreceived
    · exact hreceived
    · exact hreceived
    · exact .inl rfl
    · exact .inl rfl

/-- **Refinement.** What a pool does the parallel node does too. -/
theorem Inv.run_node (h : Inv body s taken job) {tr : List (Event S σ)}
    (hr : Run sem env body s tr t) :
    ∃ taken' job', Inv body t taken' job' ∧ ∀ {α : Type} (k : (Fin n → ρ) → Prog S ρ α),
      Interleaving.Run sem env (node w taken job k) s.world tr (node w taken' job' k) t.world := by
  induction hr generalizing taken job with
  | refl => exact ⟨taken, job, h, fun k ↦ .refl⟩
  | outside hs _ ih =>
    obtain ⟨taken', job', h', hrun⟩ := ih (h.outside hs).1
    refine ⟨taken', job', h', fun k ↦ ?_⟩
    cases hs with
    | env hs => exact .env hs (hrun k)
    | cancel => exact hrun k
  | step hs _ ih =>
    obtain ⟨taken₁, job₁, h₁, hstep⟩ := h.step hs
    obtain ⟨taken', job', h', hrun⟩ := ih h₁
    refine ⟨taken', job', h', fun k ↦ ?_⟩
    rcases hstep with hstep | ⟨rfl, rfl, rfl, hworld, -⟩
    · exact .step (hstep k) (hrun k)
    · rw [← hworld]
      exact hrun k

/-- When the main thread has returned, every job has ended with a value, and it has received each
value at most once, and all of them unless the pool has been cancelled. -/
theorem Inv.of_returned (h : Inv body s taken job) (hw : 0 < n → 0 < w)
    (hmain : s.main = .returned) :
    taken = n ∧ ∃ (rs : Fin n → ρ) (l : List (Fin n)), (∀ i, job i = .ret (rs i)) ∧ l.Nodup ∧
      s.received = l.map (fun i ↦ (i, rs i)) ∧ (s.cancelled = false → ∀ i, i ∈ l) := by
  have hdone := h.returned hmain
  have hclosed : s.closed = true := by rw [h.closed, hmain]; rfl
  have htaken : taken = n := by
    rcases Nat.eq_zero_or_pos n with hn | hn
    · have hle := h.taken_le
      have hfed := h.fed_le
      omega
    · have hfits := h.worker ⟨0, hw hn⟩
      rw [hdone] at hfits
      exact h.taken_eq hclosed hfits.2.2
  have hheld : ∑ j, (s.worker j).held = 0 :=
    Finset.sum_eq_zero fun j _ ↦ by rw [hdone]; rfl
  have hret (i : Fin n) : ∃ r, job i = .ret r := by
    have hmem : i ∈ (below n taken).val := by simp [below, htaken]
    rw [← h.places, hheld, zero_add, Multiset.mem_add, Multiset.mem_coe, Multiset.mem_coe,
      List.mem_map, List.mem_map] at hmem
    rcases hmem with ⟨x, hx, rfl⟩ | ⟨x, hx, rfl⟩
    · exact ⟨x.2, h.sent x (.inl hx)⟩
    · exact ⟨x.2, h.sent x (.inr hx)⟩
  choose rs hrs using hret
  have hnodup : (s.received.map Prod.fst).Nodup :=
    Multiset.coe_nodup.mp (Multiset.nodup_add.mp h.nodup_places).2.1
  refine ⟨htaken, rs, s.received.map Prod.fst, hrs, hnodup, ?_, fun hcancelled i ↦ ?_⟩
  · have hvalue : ∀ x ∈ s.received, x = (x.1, rs x.1) := fun x hx ↦ by
      have heq := (h.sent x (.inr hx)).symm.trans (hrs x.1)
      injection heq with _ heq
      exact Prod.ext rfl heq
    calc s.received = s.received.map id := (List.map_id _).symm
      _ = s.received.map fun x ↦ (x.1, rs x.1) := List.map_congr_left hvalue
      _ = (s.received.map Prod.fst).map fun i ↦ (i, rs i) := by rw [List.map_map]; rfl
  · have hreceived := h.received
    rw [hmain] at hreceived
    have hlen : (s.received.map Prod.fst).toFinset.card = Fintype.card (Fin n) := by
      rw [List.toFinset_card_of_nodup hnodup, List.length_map, Fintype.card_fin]
      exact hreceived.resolve_left (by simp [hcancelled])
    have huniv := Finset.eq_univ_of_card _ hlen
    rw [← List.mem_toFinset, huniv]
    exact Finset.mem_univ i

theorem Run.trans {u : WorkerPool S ρ σ n w} {tr tr' : List (Event S σ)}
    (h : Run sem env body s tr t) (h' : Run sem env body t tr' u) :
    Run sem env body s (tr ++ tr') u := by
  induction h with
  | refl => exact h'
  | outside hs _ ih => exact .outside hs (ih h')
  | step hs _ ih =>
    rw [List.append_assoc]
    exact .step hs (ih h')

/-- The run of a pool until the main thread has returned, as a run of the parallel node. -/
theorem Run.of_returned (hw : 0 < n → 0 < w) {cancelled : Bool} {s₀ : σ} {tr : List (Event S σ)}
    (hr : Run sem env body (initial S ρ n w cancelled s₀) tr t) (hmain : t.main = .returned) :
    ∃ (rs : Fin n → ρ) (l : List (Fin n)), l.Nodup ∧ t.received = l.map (fun i ↦ (i, rs i)) ∧
      (t.cancelled = false → ∀ i, i ∈ l) ∧ ∀ {α : Type} (k : (Fin n → ρ) → Prog S ρ α),
        Interleaving.Run sem env (.par w (fun _ ↦ false) body k) s₀ tr (k rs) t.world := by
  obtain ⟨taken, job, h, hrun⟩ := (Inv.of_initial cancelled s₀).run_node hr
  obtain ⟨rfl, rs, l, hrs, hnodup, hreceived, hall⟩ := h.of_returned hw hmain
  refine ⟨rs, l, hnodup, hreceived, hall, fun k ↦ ?_⟩
  have hjoin : Interleaving.Run sem env (node w taken job k) t.world [] (k rs) t.world :=
    .step (.join (fun i ↦ by simp) hrs) .refl
  have hnode := (hrun k).trans hjoin
  rw [List.append_nil] at hnode
  exact hnode

/-! ## Progress and termination -/

/-- The next step of a pool, after the world may have moved and the pool may have been cancelled. -/
def Next (sem : (o : S.Op) → σ → S.Res o → σ → Prop) (env : σ → σ → Prop)
    (body : Fin n → Prog S ρ ρ) (s' s : WorkerPool S ρ σ n w) : Prop :=
  ∃ s₁ e, Relation.ReflTransGen (Outside env) s s₁ ∧ Step sem body s₁ e s'

/-- **Termination.** A pool has no infinite run of its own steps. -/
theorem Inv.acc (h : Inv body s taken job) : Acc (Next sem env body) s := by
  suffices ∀ p : Prog S ρ (Fin n → ρ), Acc Prog.Next p → ∀ (m : ℕ) (s : WorkerPool S ρ σ n w)
      (taken : ℕ) (job : Fin n → Prog S ρ ρ), Inv body s taken job → node w taken job .ret = p →
        s.rank = m → Acc (Next sem env body) s from
    this _ (Prog.acc_next _) _ s taken job h rfl rfl
  intro p hp
  induction hp with
  | intro p _ ihp =>
    intro m
    induction m using Nat.strong_induction_on with
    | _ m ihm =>
      intro s taken job h hp hm
      refine .intro _ ?_
      rintro s' ⟨s₁, e, hout, hstep⟩
      have h₁ : Inv body s₁ taken job ∧ s₁.rank = m := by
        clear hstep
        induction hout with
        | refl => exact ⟨h, hm⟩
        | tail _ hs ih =>
          obtain ⟨h', hrank⟩ := ih.1.outside hs
          exact ⟨h', hrank.trans ih.2⟩
      obtain ⟨taken', job', h', hcase⟩ := h₁.1.step hstep
      rcases hcase with hnext | ⟨-, rfl, rfl, -, hrank⟩
      · exact ihp _ (hp ▸ (hnext .ret).next) _ s' taken' job' h' rfl rfl
      · exact ihm _ (hrank.trans_eq h₁.2) s' _ _ h' hp rfl

/-- The channel of the values has room for the value of every worker that sends one. -/
theorem Inv.room_ch (h : Inv body s taken job) {j : Fin w} {i : Fin n} {r : ρ}
    (hj : s.worker j = .sending i r) : s.ch.length < n := by
  have hcard := congrArg Multiset.card h.places
  rw [Multiset.card_add, Multiset.card_add, Multiset.coe_card, Multiset.coe_card, List.length_map,
    List.length_map] at hcard
  have hheld : 0 < (∑ j, (s.worker j).held).card := by
    refine Multiset.card_pos_iff_exists_mem.mpr ⟨i, Multiset.mem_sum.mpr ⟨j, Finset.mem_univ j, ?_⟩⟩
    rw [hj]
    exact Multiset.mem_singleton_self i
  have hle : (below n taken).val.card ≤ n :=
    (Finset.card_le_univ _).trans_eq (Fintype.card_fin n)
  omega

/-- The channel of the jobs has room for every job. -/
theorem Inv.room_jobs (h : Inv body s taken job) {i : Fin n} (hmain : s.main = .feeding i) :
    s.jobs.length < n := by
  rw [h.jobs, hmain, MainThread.fed, List.length_drop, List.length_take, List.length_finRange]
  omega

/-- A worker that has been started and has not ended can take a step, unless it waits for a job
that may still come, or the program of its job waits. -/
theorem Inv.step_worker (h : Inv body s taken job) (j : Fin w) :
    (s.worker j = .idle ∨ s.worker j = .done) ∨ (∃ e s', Step sem body s e s') ∨
      (s.worker j = .receiving ∧ s.jobs = [] ∧ s.closed = false) ∨
        ∃ i p, s.worker j = .running i p ∧ p.value? = none := by
  cases hj : s.worker j with
  | idle => exact .inl (.inl rfl)
  | done => exact .inl (.inr rfl)
  | receiving =>
    cases hjobs : s.jobs with
    | cons i rest => exact .inr (.inl ⟨_, _, .receive j hj hjobs⟩)
    | nil =>
      cases hclosed : s.closed with
      | true => exact .inr (.inl ⟨_, _, .exit j hj hjobs hclosed⟩)
      | false => exact .inr (.inr (.inl ⟨rfl, rfl, rfl⟩))
  | sending i r => exact .inr (.inl ⟨_, _, .send j hj (h.room_ch hj)⟩)
  | running i p =>
    cases hp : p.value? with
    | none => exact .inr (.inr (.inr ⟨i, p, rfl, hp⟩))
    | some r =>
      obtain rfl := Prog.value?_eq_some_iff.mp hp
      exact .inr (.inl ⟨_, _, .finish j hj⟩)

/-- The main thread can take a step until it has returned, unless it waits for a value or for the
workers to end. -/
theorem Inv.step_main (h : Inv body s taken job) (hmain : s.main ≠ .returned) :
    (∃ e s', Step sem body s e s') ∨
      (s.closed = true ∧ s.main.begun w = w ∧
        ((∃ k < n, s.main = .collecting k ∧ s.ch = []) ∨ (s.main = .waiting ∧ s.wg ≠ 0))) := by
  have hbegun := h.begun_le
  have hfed := h.fed_le
  have hreceived := h.received
  cases hm : s.main with
  | returned => exact absurd hm hmain
  | starting k =>
    rw [hm, MainThread.begun] at hbegun
    rcases hbegun.eq_or_lt with rfl | hk
    · exact .inl ⟨_, _, .started hm⟩
    · exact .inl ⟨_, _, .start ⟨k, hk⟩ hm⟩
  | feeding k =>
    rw [hm, MainThread.fed] at hfed
    rcases hfed.eq_or_lt with rfl | hk
    · exact .inl ⟨_, _, .close hm⟩
    · exact .inl ⟨_, _, .feed ⟨k, hk⟩ hm (h.room_jobs (i := ⟨k, hk⟩) hm)⟩
  | collecting k =>
    rw [hm] at hreceived
    rcases hreceived.2.eq_or_lt with rfl | hk
    · exact .inl ⟨_, _, .collected hm⟩
    · cases hch : s.ch with
      | nil => exact .inr ⟨by rw [h.closed, hm]; rfl, rfl, .inl ⟨k, hk, rfl, rfl⟩⟩
      | cons x rest => exact .inl ⟨_, _, .collect hm hk hch⟩
  | waiting =>
    by_cases hwg : s.wg = 0
    · exact .inl ⟨_, _, .return_ hm hwg⟩
    · exact .inr ⟨by rw [h.closed, hm]; rfl, rfl, .inr ⟨rfl, hwg⟩⟩

/-- The jobs that workers run can go on, possibly after the world has moved. -/
def JobsGoOn (sem : (o : S.Op) → σ → S.Res o → σ → Prop) (env : σ → σ → Prop)
    (s : WorkerPool S ρ σ n w) : Prop :=
  ∀ j i p, s.worker j = .running i p → p.value? = none → ∃ t₁ e p' t₂,
    Relation.ReflTransGen env s.world t₁ ∧ Interleaving.Step sem p t₁ e p' t₂

/-- **Progress.** As long as its jobs can go on, so can a pool whose main thread has not
returned. -/
theorem Inv.progress (h : Inv body s taken job) (hw : 0 < n → 0 < w) (hmain : s.main ≠ .returned)
    (hjobs : JobsGoOn sem env s) : ∃ s', Next sem env body s' s := by
  have hnow (hs : ∃ e s', Step sem body s e s') : ∃ s', Next sem env body s' s := by
    obtain ⟨e, s', hs⟩ := hs
    exact ⟨s', s, e, .refl, hs⟩
  rcases h.step_main hmain with hs | ⟨hclosed, hbegun, hwait⟩
  · exact hnow hs
  by_cases hdone : ∀ j, s.worker j = .done
  · -- all workers have ended, so the main thread has nothing to wait for
    exfalso
    rcases hwait with ⟨k, hk, hcollecting, hch⟩ | ⟨-, hwg⟩
    · have hfits := h.worker ⟨0, hw (by omega)⟩
      rw [hdone] at hfits
      have htaken := h.taken_eq hclosed hfits.2.2
      have hheld : ∑ j, (s.worker j).held = 0 :=
        Finset.sum_eq_zero fun j _ ↦ by rw [hdone]; rfl
      have hcard := congrArg Multiset.card h.places
      have hreceived := h.received
      rw [hcollecting] at hreceived
      have hall : (below n taken).val.card = n := by
        rw [show below n taken = Finset.univ from Finset.filter_true_of_mem fun i _ ↦ by omega]
        exact Fintype.card_fin n
      rw [hheld, hch, hall] at hcard
      simp only [List.map_nil, Multiset.coe_nil, add_zero, zero_add, Multiset.coe_card,
        List.length_map] at hcard
      have := hreceived.1
      omega
    · refine hwg (h.wg.trans (Finset.sum_eq_zero fun j _ ↦ ?_))
      rw [hdone]
      rfl
  · push Not at hdone
    obtain ⟨j, hj⟩ := hdone
    rcases h.step_worker j with (hidle | hdone) | hs | ⟨-, -, hopen⟩ | ⟨i, p, hi, hp⟩
    · have hfits := h.worker j
      rw [hidle] at hfits
      exact absurd (hbegun.symm.trans_le hfits) (not_le.mpr j.isLt)
    · exact absurd hdone hj
    · exact hnow hs
    · simp [hclosed] at hopen
    · obtain ⟨t₁, e, p', t₂, hmoves, hs⟩ := hjobs j i p hi hp
      have hout : Relation.ReflTransGen (Outside env) s { s with world := t₁ } := by
        clear hs
        induction hmoves with
        | refl => exact .refl
        | tail _ hstep ih => exact ih.tail (.env hstep)
      exact ⟨_, _, e, hout, .run j hi hs⟩

/-! ## Executing -/

/-- Who goes on. -/
inductive Turn (w : ℕ)
  | main
  | worker (j : Fin w)
  | cancel

/-- Let the main thread or a worker take a step, or cancel the pool. A thread that cannot take one is
skipped, and so is a worker whose job asks for something. -/
def turn (body : Fin n → Prog S ρ ρ) (s : WorkerPool S ρ σ n w) :
    Turn w → WorkerPool S ρ σ n w
  | .cancel => { s with cancelled := true }
  | .main =>
    match s.main with
    | .starting k =>
      if h : k < w then
        { s.setWorker ⟨k, h⟩ .receiving with main := .starting (k + 1), wg := s.wg + 1 }
      else if k = w then { s with main := .feeding 0 }
      else s
    | .feeding k =>
      if h : k < n then
        if s.jobs.length < n then
          { s with main := .feeding (k + 1), jobs := s.jobs ++ [⟨k, h⟩] }
        else s
      else if k = n then { s with main := .collecting 0, closed := true }
      else s
    | .collecting k =>
      if k < n then
        match s.ch with
        | x :: rest =>
          { s with main := .collecting (k + 1), ch := rest, received := s.received ++ [x] }
        | [] => if s.cancelled then { s with main := .waiting } else s
      else if k = n then { s with main := .waiting }
      else s
    | .waiting => if s.wg = 0 then { s with main := .returned } else s
    | .returned => s
  | .worker j =>
    match s.worker j with
    | .receiving =>
      match s.jobs with
      | i :: rest => { s.setWorker j (.running i (body i)) with jobs := rest }
      | [] => if s.closed then { s.setWorker j .done with wg := s.wg - 1 } else s
    | .running i p =>
      match p.value? with
      | some r => s.setWorker j (.sending i r)
      | none => s
    | .sending i r =>
      if s.ch.length < n then { s.setWorker j .receiving with ch := s.ch ++ [(i, r)] } else s
    | .idle => s
    | .done => s

theorem turn_run (c : Turn w) : Run sem env body s [] (s.turn body c) := by
  have hstep {s' : WorkerPool S ρ σ n w} (h : Step sem body s none s') :
      Run sem env body s [] s' := .step h .refl
  cases c with
  | cancel => exact .outside .cancel .refl
  | main =>
    rw [turn]
    split
    · rename_i k hmain
      split_ifs with hk hk'
      · exact hstep (.start ⟨k, hk⟩ hmain)
      · subst hk'
        exact hstep (.started hmain)
      · exact .refl
    · rename_i k hmain
      split_ifs with hk hroom hk'
      · exact hstep (.feed ⟨k, hk⟩ hmain hroom)
      · exact .refl
      · subst hk'
        exact hstep (.close hmain)
      · exact .refl
    · rename_i k hmain
      by_cases hk : k < n
      · rw [if_pos hk]
        split
        · exact hstep (.collect hmain hk ‹_›)
        · split_ifs with hcancelled
          · exact hstep (.break_ hmain hk hcancelled)
          · exact .refl
      · rw [if_neg hk]
        split_ifs with hk'
        · subst hk'
          exact hstep (.collected hmain)
        · exact .refl
    · split_ifs with hwg
      · exact hstep (.return_ ‹_› hwg)
      · exact .refl
    · exact .refl
  | worker j =>
    rw [turn]
    split
    · rename_i hj
      split
      · exact hstep (.receive j hj ‹_›)
      · split_ifs with hclosed
        · exact hstep (.exit j hj ‹_› hclosed)
        · exact .refl
    · rename_i i p hj
      split
      · rename_i r hp
        rw [Prog.value?_eq_some_iff] at hp
        subst hp
        exact hstep (.finish j hj)
      · exact .refl
    · rename_i i r hj
      split_ifs with hroom
      · exact hstep (.send j hj hroom)
      · exact .refl
    · exact .refl
    · exact .refl

theorem foldl_turn_run (turns : List (Turn w)) :
    Run sem env body s [] (turns.foldl (turn body) s) := by
  induction turns generalizing s with
  | nil => exact .refl
  | cons c turns ih => exact (turn_run c).trans ih

end WorkerPool

end Interleaving
