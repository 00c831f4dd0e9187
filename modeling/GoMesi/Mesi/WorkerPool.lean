import GoMesi.Interleaving.Ghost
import GoMesi.Interleaving.Workers
import GoMesi.Mesi.Simulate

/-!
# The worker pool of a render

`MESIParse` renders the include elements of a page in a pool of workers, and puts what comes out
between the responses of the tokens it has rendered itself. A token is one or the other, so its
place in the page has one response, and sorting the responses by their places restores the order of
the page. If the context is cancelled, some responses of the pool are missing and nothing else is.
-/

namespace GoMesi

open Interleaving

/-! ## Responses in order -/

/-- Responses with different indices are assembled in the order of these. -/
theorem assembleResults_of_perm {content : ℕ → Bytes} {results : List Response} {kept : List ℕ}
    (hkept : kept.Pairwise (· < ·)) (h : results.Perm (kept.map fun i ↦ ⟨content i, i⟩)) :
    assembleResults results = kept.flatMap content := by
  have hsort : results.insertionSort (fun x y ↦ x.index ≤ y.index) =
      kept.map fun i ↦ ⟨content i, i⟩ := by
    refine List.Perm.eq_of_pairwise
      (fun x y hx hy (hxy : x.index ≤ y.index) (hyx : y.index ≤ x.index) ↦ ?_) ?_ ?_
      ((List.perm_insertionSort _ _).trans h)
    · have hx' := h.subset ((List.perm_insertionSort _ _).subset hx)
      obtain ⟨i, -, rfl⟩ := List.mem_map.mp hx'
      obtain ⟨j, -, rfl⟩ := List.mem_map.mp hy
      obtain rfl : i = j := le_antisymm hxy hyx
      rfl
    · have : Std.Total fun x y : Response ↦ x.index ≤ y.index := ⟨fun x y ↦ le_total _ _⟩
      have : IsTrans Response fun x y ↦ x.index ≤ y.index := ⟨fun _ _ _ ↦ le_trans⟩
      exact List.pairwise_insertionSort _ _
    · exact List.pairwise_map.mpr (hkept.imp fun hlt ↦ hlt.le)
  rw [assembleResults, hsort, List.flatMap_map]

/-- The content of the response with an index. -/
def contentAt (results : List Response) (i : ℕ) : Bytes :=
  ((results.find? (·.index = i)).map Response.content).getD []

theorem contentAt_of_mem {results : List Response} (h : (results.map Response.index).Nodup)
    {r : Response} (hr : r ∈ results) : contentAt results r.index = r.content := by
  induction results with
  | nil => simp at hr
  | cons r' results ih =>
    rw [List.map_cons, List.nodup_cons] at h
    rcases List.mem_cons.mp hr with rfl | hr
    · simp [contentAt]
    · have hne : r'.index ≠ r.index := fun heq ↦
        h.1 (heq ▸ List.mem_map_of_mem hr)
      rw [← ih h.2 hr]
      simp [contentAt, hne]

/-- Responses with different indices below `n` are those of the indices that have one, in order. -/
theorem exists_kept {results all : List Response} {n : ℕ} (hsub : results.Subperm all)
    (hnodup : (all.map Response.index).Nodup) (hlt : ∀ r ∈ results, r.index < n) :
    ∃ kept : List ℕ, kept.Sublist (List.range n) ∧
      (∀ i, i ∈ kept ↔ i ∈ results.map Response.index) ∧
        results.Perm (kept.map fun i ↦ ⟨contentAt all i, i⟩) := by
  have hmap : (results.map Response.index).Nodup := by
    obtain ⟨l, hl, hs⟩ := hsub
    exact (hl.map _).nodup_iff.mp (hnodup.sublist (hs.map _))
  have hmem (i : ℕ) : i ∈ (List.range n).filter (· ∈ results.map Response.index) ↔
      i ∈ results.map Response.index := by
    rw [List.mem_filter, List.mem_range, decide_eq_true_eq, and_iff_right_iff_imp]
    intro hi
    obtain ⟨r, hr, rfl⟩ := List.mem_map.mp hi
    exact hlt r hr
  refine ⟨_, List.filter_sublist, hmem, ?_⟩
  have hself : results = (results.map Response.index).map fun i ↦ ⟨contentAt all i, i⟩ := by
    rw [List.map_map]
    refine (List.map_id _).symm.trans (List.map_congr_left fun r hr ↦ ?_)
    exact congrArg (Response.mk · r.index) (contentAt_of_mem hnodup (hsub.subset hr)).symm
  rw [hself]
  refine List.Perm.map _ ((List.perm_ext_iff_of_nodup hmap ?_).mpr fun i ↦ ?_)
  · exact List.nodup_range.filter _
  · rw [← hself, hmem]

/-! ## Tokens for the first pass and tokens for the workers -/

/-- The types of the tokens that are left to the workers. -/
def TagType.IsJob (t : TagType) : Prop := t = .include_ ∨ t = .comment ∨ t = .remove

/-- Every token from the number `index` on has a response or is a job, and only once. -/
structure Scanned.Covers (s : Scanned) (tokens : List EsiToken) (index : ℕ) : Prop where
  indices : (s.results.map Response.index ++ s.jobs.map EsiJob.id).Perm
    (List.range' index tokens.length)
  jobs : ∀ j ∈ s.jobs, ∃ i : Fin tokens.length, j.id = index + i ∧
    ∃ t, tokens[i].esiTagType = some t ∧ t.IsJob

namespace Scanned.Covers

variable {s : Scanned} {tokens : List EsiToken} {index : ℕ} {token : EsiToken}

private theorem jobs_cons (h : s.Covers tokens (index + 1)) : ∀ j ∈ s.jobs,
    ∃ i : Fin (token :: tokens).length, j.id = index + i ∧
      ∃ t, (token :: tokens)[i].esiTagType = some t ∧ t.IsJob := fun j hj ↦ by
  obtain ⟨i, hid, ht⟩ := h.jobs j hj
  exact ⟨i.succ, by rw [hid, Fin.val_succ]; omega, ht⟩

theorem addResult (h : s.Covers tokens (index + 1)) (content : Bytes) :
    (s.addResult ⟨content, index⟩).Covers (token :: tokens) index where
  indices := h.indices.cons index
  jobs := h.jobs_cons

theorem addJob (h : s.Covers tokens (index + 1)) {t : TagType} (ht : token.esiTagType = some t)
    (hjob : t.IsJob) : (s.addJob ⟨index, token⟩).Covers (token :: tokens) index where
  indices := List.perm_middle.trans (h.indices.cons index)
  jobs j hj := by
    rcases List.mem_cons.mp hj with rfl | hj
    · exact ⟨0, rfl, t, ht, hjob⟩
    · exact h.jobs_cons j hj

end Scanned.Covers

/-- Whatever the blocks of the page do, the first pass covers all tokens. -/
theorem walk_scanTokens_covers {F : Frame} {config : EsiParserConfig} {bound : ℕ}
    {tryBlock chooseBlock : Site → Path → Option MapRef → (raw : Bytes) → raw.length ≤ bound →
      Render Bytes} {tokens : List EsiToken} (hbound : ∀ t ∈ tokens, t.esiTagContent.length ≤ bound)
    (index : ℕ) (vars : Option MapRef) :
    (scanTokens F config tryBlock chooseBlock tokens hbound index vars).Walk
      (Ghost.only fun _ ↦ True) () fun _ s ↦ s.Covers tokens index := by
  induction tokens generalizing index vars with
  | nil => exact ⟨.refl _, by simp⟩
  | cons token tokens ih =>
    have hbound' : ∀ t ∈ tokens, t.esiTagContent.length ≤ bound := fun t h ↦
      hbound t (List.mem_cons_of_mem _ h)
    have hrest (vars : Option MapRef) (content : Bytes) :
        ((scanTokens F config tryBlock chooseBlock tokens hbound' (index + 1) vars).bind
          fun s ↦ .ret (s.addResult ⟨content, index⟩)).Walk (Ghost.only fun _ ↦ True) ()
            fun _ s ↦ s.Covers (token :: tokens) index :=
      Prog.walk_bind.mpr ((ih hbound' _ _).mono fun _ _ h ↦ h.addResult content)
    rw [scanTokens]
    split
    · exact Prog.walk_bind.mpr ((Prog.all_true _).mono fun _ vars _ ↦ hrest vars [])
    · exact Prog.walk_bind.mpr ((Prog.all_true _).mono fun _ content _ ↦ hrest vars content)
    · exact Prog.walk_bind.mpr ((Prog.all_true _).mono fun _ content _ ↦ hrest vars content)
    · exact hrest vars _
    · rename_i htry hvars hchoose hinline
      split_ifs with hesi
      · refine Prog.walk_bind.mpr ((ih hbound' _ _).mono fun _ _ h ↦ ?_)
        cases htype : token.esiTagType with
        | none => simp [EsiToken.isEsi, htype] at hesi
        | some t =>
          refine h.addJob htype ?_
          cases t <;> simp_all [TagType.IsJob]
      · exact Prog.walk_bind.mpr ((Prog.all_true _).mono fun _ content _ ↦ hrest vars content)

/-! ## The pool -/

/-- The results of a render for what its collector has received. -/
def Scanned.collected (s : Scanned) (received : List (Fin s.jobs.length × Bytes)) : List Response :=
  s.results ++ received.map fun x ↦ ⟨x.2, s.jobs[x.1].id⟩

/-- What a render delivers, given the values `rs` of its jobs. -/
structure Delivers (tokens : List EsiToken) (s : Scanned) (rs : Fin s.jobs.length → Bytes)
    (cancelled : Bool) (results : List Response) (content : ℕ → Bytes) (kept : List ℕ) : Prop where
  /-- The contributions of the tokens that the render has seen to itself. -/
  own : ∀ r ∈ s.results, content r.index = r.content
  /-- The contributions of the tokens that were left to the workers. -/
  job : ∀ i, content s.jobs[i].id = rs i
  /-- A token has one response, or none. -/
  once : results.Perm (kept.map fun i ↦ ⟨content i, i⟩)
  order : kept.Sublist (List.range tokens.length)
  mem_kept : ∀ i : Fin tokens.length, (∀ t, tokens[i].esiTagType = some t → ¬ t.IsJob) → i.val ∈ kept
  all : cancelled = false → kept = List.range tokens.length
  output : assembleResults results = kept.flatMap content

/-- What has been received of the values of the jobs comes to its place. -/
theorem Scanned.Covers.delivers {s : Scanned} {tokens : List EsiToken} (h : s.Covers tokens 0)
    (rs : Fin s.jobs.length → Bytes) {l : List (Fin s.jobs.length)} (hl : l.Nodup)
    {cancelled : Bool} (hall : cancelled = false → ∀ i, i ∈ l) :
    ∃ content kept, Delivers tokens s rs cancelled (s.collected (l.map fun i ↦ (i, rs i)))
      content kept := by
  let all := s.results ++ (List.finRange s.jobs.length).map fun i ↦ ⟨rs i, s.jobs[i].id⟩
  have hindices : (all.map Response.index).Perm (List.range tokens.length) := by
    have hjobs : (List.finRange s.jobs.length).map (fun i ↦ s.jobs[i].id) = s.jobs.map EsiJob.id := by
      conv_rhs => rw [← List.map_get_finRange s.jobs, List.map_map]
      rfl
    have hperm := h.indices
    rw [← List.range_eq_range', ← hjobs] at hperm
    simpa [all, Function.comp_def] using hperm
  have hnodup : (all.map Response.index).Nodup := hindices.nodup_iff.mpr List.nodup_range
  have hsub : (s.collected (l.map fun i ↦ (i, rs i))).Subperm all := by
    rw [collected, List.map_map]
    obtain ⟨l', hperm, hsub⟩ := hl.subperm fun i _ ↦ List.mem_finRange i
    exact (List.subperm_append_left _).mpr ⟨_, hperm.map _, hsub.map _⟩
  obtain ⟨kept, horder, hkept, honce⟩ := exists_kept (n := tokens.length) hsub hnodup fun r hr ↦
    List.mem_range.mp (hindices.subset (List.mem_map_of_mem (hsub.subset hr)))
  refine ⟨contentAt all, kept, fun r hr ↦ ?_, fun i ↦ ?_, honce, horder, fun i hi ↦ ?_,
    fun hcancelled ↦ ?_, ?_⟩
  · exact contentAt_of_mem hnodup (List.mem_append_left _ hr)
  · exact contentAt_of_mem hnodup
      (List.mem_append_right _ (List.mem_map_of_mem (List.mem_finRange i)))
  · -- its number is not that of a job, so it has a response of its own
    have hmem := h.indices.mem_iff.mpr (List.mem_range'_1.mpr ⟨Nat.zero_le _, by omega⟩ :
      i.val ∈ List.range' 0 tokens.length)
    rw [hkept, collected, List.map_append]
    refine List.mem_append_left _ ((List.mem_append.mp hmem).resolve_right fun hjob ↦ ?_)
    obtain ⟨j, hj, hid⟩ := List.mem_map.mp hjob
    obtain ⟨i', hi', t, ht, htype⟩ := h.jobs j hj
    obtain rfl : i = i' := Fin.ext (by omega)
    exact hi t ht htype
  · have hperm : (s.collected (l.map fun i ↦ (i, rs i))).Perm all := by
      rw [collected, List.map_map]
      refine List.Perm.append_left _ (List.Perm.map _ ?_)
      exact (List.perm_ext_iff_of_nodup hl (List.nodup_finRange _)).mpr fun i ↦
        iff_of_true (hall hcancelled i) (List.mem_finRange i)
    refine horder.eq_of_length ?_
    have hlen := (honce.symm.trans hperm).length_eq
    rw [List.length_map] at hlen
    rw [hlen, ← hindices.length_eq, List.length_map]
  · exact assembleResults_of_perm (List.pairwise_lt_range.sublist horder) honce

/-- What holds of the pool of a render at any time, with `w` workers for the jobs `body` that started
in the world `s₁`. -/
structure PoolDelivers {σ : Type} (sem : (o : RenderOp) → σ → renderSignature.Res o → σ → Prop)
    (env : σ → σ → Prop) (tokens : List EsiToken) (s : Scanned) {w : ℕ}
    (body : Fin s.jobs.length → Render Bytes) (s₁ : σ) (tr : List (Event renderSignature σ))
    (t : WorkerPool renderSignature Bytes σ s.jobs.length w) : Prop where
  /-- At the end every job has run to its value, and the page is put together from these. -/
  delivers : t.main = .returned → ∃ rs content kept,
    Run sem env (Prog.fork w body) s₁ tr (.ret rs) t.world ∧
      Delivers tokens s rs t.cancelled (s.collected t.received) content kept
  /-- No send waits. -/
  send : ∀ j i r, t.worker j = .sending i r → t.ch.length < s.jobs.length
  feed : ∀ i : Fin s.jobs.length, t.main = .feeding i → t.jobs.length < s.jobs.length
  /-- Until the end there is a next step, and there are only finitely many. -/
  progress : t.main ≠ .returned → t.JobsGoOn sem env → ∃ t', WorkerPool.Next sem env body t' t
  acc : Acc (WorkerPool.Next sem env body) t
  /-- No worker is left behind. -/
  done : t.main = .returned → ∀ j, t.worker j = .done

/-- **The worker pool.** Whatever the tokens of a page are, and however the workers, the collector and
the cancellation of the context interleave, the pool delivers every token once and in order. -/
theorem poolDelivers_of_run {P : Platform} {d : ℕ} {deeper : Deeper d} {F : Frame} {start : Time}
    {config : EsiParserConfig} (hd : config.maxDepth = d) (hworkers : 1 ≤ config.maxWorkers)
    {bound : ℕ} {tryBlock chooseBlock : Site → Path → Option MapRef → (raw : Bytes) →
      raw.length ≤ bound → Render Bytes} {tokens : List EsiToken}
    {hbound : ∀ t ∈ tokens, t.esiTagContent.length ≤ bound} {vars : Option MapRef} {σ : Type}
    {sem : (o : RenderOp) → σ → renderSignature.Res o → σ → Prop} {env : σ → σ → Prop} {s₀ s₁ : σ}
    {tr₀ tr : List (Event renderSignature σ)} {s : Scanned}
    (hscan : Run sem env (scanTokens F config tryBlock chooseBlock tokens hbound 0 vars) s₀ tr₀
      (.ret s) s₁) {cancelled : Bool}
    {t : WorkerPool renderSignature Bytes σ s.jobs.length
      (min config.maxWorkers.toNat s.jobs.length)}
    (hpool : WorkerPool.Run sem env
      (fun i ↦ processJob P deeper F start { config with vars := s.vars } hd s.jobs[i])
      (.initial _ _ _ _ cancelled s₁) tr t) :
    PoolDelivers sem env tokens s
      (fun i ↦ processJob P deeper F start { config with vars := s.vars } hd s.jobs[i]) s₁ tr t := by
  have hcovers : s.Covers tokens 0 := hscan.value (walk_scanTokens_covers hbound 0 vars)
  have hw : 0 < s.jobs.length → 0 < min config.maxWorkers.toNat s.jobs.length := by omega
  obtain ⟨taken, job, hinv, -⟩ := (WorkerPool.Inv.of_initial cancelled s₁).run_node hpool
  refine ⟨fun hmain ↦ ?_, fun j i r ↦ hinv.room_ch, fun i ↦ hinv.room_jobs, hinv.progress hw,
    hinv.acc, hinv.returned⟩
  obtain ⟨rs, l, hl, hreceived, hall, hrun⟩ := hpool.of_returned hw hmain
  obtain ⟨content, kept, h⟩ := hcovers.delivers rs hl hall
  exact ⟨rs, content, kept, hrun .ret, by rwa [hreceived]⟩

/-- What a render makes of its jobs with the operation `collect` it makes of them with the pool. -/
theorem run_collect_of_run {s : Scanned} {w : ℕ} (hw : 0 < s.jobs.length → 0 < w)
    {body : Fin s.jobs.length → Render Bytes} {σ : Type}
    {sem : (o : RenderOp) → σ → renderSignature.Res o → σ → Prop} {env : σ → σ → Prop} {s₁ : σ}
    {cancelled : Bool} {tr : List (Event renderSignature σ)}
    {t : WorkerPool renderSignature Bytes σ s.jobs.length w}
    (hpool : WorkerPool.Run sem env body (.initial _ _ _ _ cancelled s₁) tr t)
    (hmain : t.main = .returned)
    (hsem : ∀ r : renderSignature.Res (.collect s.jobs.length),
      t.cancelled = true ∨ r.1.length = s.jobs.length →
        sem (.collect s.jobs.length) t.world r t.world) :
    ∃ ev, Run sem env ((Prog.fork w body).bind fun rs ↦ (ask (.collect s.jobs.length)).bind
      fun received ↦ .ret (assembleResults
        (s.results ++ received.1.map fun i ↦ ⟨rs i, s.jobs[i].id⟩))) s₁ (tr ++ [ev])
      (.ret (assembleResults (s.collected t.received))) t.world := by
  obtain ⟨rs, l, hl, hreceived, hall, hrun⟩ := hpool.of_returned hw hmain
  have hlen : t.cancelled = true ∨ l.length = s.jobs.length := by
    refine (Bool.eq_false_or_eq_true t.cancelled).imp id fun hcancelled ↦ ?_
    have hperm := (List.perm_ext_iff_of_nodup hl (List.nodup_finRange _)).mpr fun i ↦
      iff_of_true (hall hcancelled i) (List.mem_finRange i)
    rw [hperm.length_eq, List.length_finRange]
  refine ⟨_, (hrun _).trans (.step (.op (hsem ⟨l, hl⟩ hlen)) ?_)⟩
  rw [Scanned.collected, hreceived, List.map_map]
  exact .refl

/-! ## A page with one job -/

/-- An inline block and a comment. -/
def commentPage : List EsiToken :=
  [{ esiTagContent := lit "<esi:inline name=\"x\">text</esi:inline>", esiTagType := some .inline },
    { esiTagContent := lit "<esi:comment text=\"c\"/>", esiTagType := some .comment }]

/-- What the first pass makes of it. -/
def commentScanned : Scanned where
  vars := none
  results := [⟨processInlineBlock (lit "<esi:inline name=\"x\">text</esi:inline>"), 0⟩]
  jobs := [⟨1, { esiTagContent := lit "<esi:comment text=\"c\"/>", esiTagType := some .comment }⟩]

/-- What its jobs do. -/
def commentJob (i : Fin commentScanned.jobs.length) : Render Bytes :=
  processJob (.ofElements []) (d := 0) (fun _ _ _ _ _ ↦ .ret []) .page 0 { maxWorkers := 1 } rfl
    commentScanned.jobs[i]

/-- Its pool, when the context is cancelled while the worker has the comment. -/
def commentPool : WorkerPool renderSignature Bytes Unit 1 1 :=
  [.main, .main, .main, .main, .worker 0, .cancel, .main, .worker 0, .worker 0, .worker 0,
    .main].foldl (WorkerPool.turn commentJob) (.initial _ _ _ _ false ())

theorem poolDelivers_commentPool :
    assembleResults (commentScanned.collected commentPool.received) = lit "text" ∧
      PoolDelivers (fun _ _ _ _ ↦ False) (fun _ _ ↦ False) commentPage commentScanned commentJob ()
        [] commentPool :=
  have hscan : Run (fun _ _ _ _ ↦ False) (fun _ _ ↦ False)
      (@scanTokens .page { maxWorkers := 1 } 100 (fun _ _ _ _ _ ↦ .ret []) (fun _ _ _ _ _ ↦ .ret [])
        commentPage (by decide) 0 none) () [] (.ret commentScanned) () := .refl
  ⟨by decide +kernel, poolDelivers_of_run rfl (by decide) hscan (WorkerPool.foldl_turn_run _)⟩

end GoMesi
