import CodeGraph.Proofs.Emission.Jobs
import CodeGraph.Proofs.Pool.Feeding

/-!
Working on every path at once is one of the schedules of a feeder and its workers. The first idle
worker takes a path as soon as it is submitted and ends its work before the next one is pulled. A
crash takes that worker away, and when nobody is left the next path is refused.
-/

namespace CodeGraph.Feeder

/-- An open pool in which nothing is going on. -/
structure Quiet (p : Pool) : Prop where
  isOpen : p.isOpen = true
  room : 1 ≤ p.capacity
  queue : p.queue = []
  free : ∀ w ∈ p.workers, w = .idle ∨ w = .gone

theorem quiet_start (o : PoolOptions) : Quiet (Pool.start o) where
  isOpen := rfl
  room := Nat.le_max_right _ _
  queue := rfl
  free := fun _ hw => .inl (List.eq_of_mem_replicate hw)

def served (p : Pool) (i : Nat) : Option Verdict → Pool
  | some v => { p with stats := { p.stats with submitted := p.stats.submitted + 1 }.record v }
  | none => { p with
      stats := { p.stats with submitted := p.stats.submitted + 1 }
      workers := p.workers.set i .gone }

section Quiet

variable {p : Pool}

theorem Quiet.served (h : Quiet p) (i : Nat) (verdict : Option Verdict) :
    Quiet (served p i verdict) := by
  obtain ⟨hopen, hroom, hqueue, hfree⟩ := h
  cases verdict with
  | some v => exact ⟨hopen, hroom, hqueue, hfree⟩
  | none =>
      refine ⟨hopen, hroom, hqueue, fun w hw => ?_⟩
      rcases List.mem_or_eq_of_mem_set hw with hw | rfl
      · exact hfree w hw
      · exact .inr rfl

/-- The first worker that is idle. -/
theorem Quiet.exists_idle (h : Quiet p) (hpresent : p.isDeserted = false) :
    p.workers[p.workers.findIdx (· == Worker.idle)]? = some .idle := by
  obtain ⟨w, hw, hidle⟩ : ∃ w ∈ p.workers, (w == Worker.idle) = true := by
    by_contra hnone
    push Not at hnone
    have hdeserted : p.isDeserted = true :=
      Pool.isDeserted_iff.mpr fun w hw =>
        (h.free w hw).resolve_left fun hidle => hnone w hw (beq_iff_eq.mpr hidle)
    simp [hpresent] at hdeserted
  have hlt : p.workers.findIdx (· == Worker.idle) < p.workers.length :=
    List.findIdx_lt_length_of_exists ⟨w, hw, hidle⟩
  rw [List.getElem?_eq_getElem hlt, beq_iff_eq.mp (List.findIdx_getElem (w := hlt))]

/-- A path goes through the hands of the first idle worker. -/
theorem Quiet.exists_round (h : Quiet p) (hpresent : p.isDeserted = false) (path : String) :
    ∃ i queued taken, Walk.assign? p path = some (i, taken) ∧ p.Step (.accepted path) queued ∧
      queued.Step (.taken i path) taken ∧
      ∀ verdict, taken.finish? i verdict = some (Feeder.served p i verdict) ∧
        taken.Step (.ended i path verdict) (Feeder.served p i verdict) := by
  let i := p.workers.findIdx (· == Worker.idle)
  have hidle : p.workers[i]? = some .idle := h.exists_idle hpresent
  obtain ⟨hopen, hroom, hqueue, -⟩ := h
  let queued : Pool := { p with
    queue := [path], stats := { p.stats with submitted := p.stats.submitted + 1 } }
  let taken : Pool := { queued with queue := [], workers := p.workers.set i (.busy path) }
  have hlt : i < p.workers.length := (List.getElem?_eq_some_iff.mp hidle).1
  have hbusy : taken.workers[i]? = some (.busy path) := by simp [taken, hlt]
  have hsubmit : p.submit? path = some queued := by
    rw [Pool.submit?_eq_some_iff, hqueue]
    exact ⟨⟨hopen, hroom, hpresent⟩, rfl⟩
  have htake : queued.take? i = some taken :=
    Pool.take?_eq_some_iff.mpr ⟨path, [], hidle, rfl, rfl⟩
  have hback : p.workers.set i .idle = p.workers := by
    obtain ⟨_, hget⟩ := List.getElem?_eq_some_iff.mp hidle
    rw [← hget, List.set_getElem_self]
  have hfinish (verdict : Option Verdict) :
      taken.finish? i verdict = some (Feeder.served p i verdict) := by
    refine Pool.finish?_eq_some_iff.mpr ⟨path, hbusy, ?_⟩
    cases verdict <;> simp [Feeder.served, taken, queued, hback, hqueue]
  refine ⟨i, queued, taken, ?_, .submit path hsubmit, .take i rfl htake,
    fun verdict => ⟨hfinish verdict, .finish i _ hbusy (hfinish verdict)⟩⟩
  rw [Walk.assign?, hsubmit, Option.bind_some]
  show (queued.take? i).map _ = _
  rw [htake, Option.map_some]

theorem assign?_eq_none (hdeserted : p.isDeserted = true) (path : String) :
    Walk.assign? p path = none := by
  rw [Walk.assign?, Option.bind_eq_none_iff]
  intro q hq
  have hpresent := (Pool.submit?_eq_some_iff.mp hq).1.2.2
  simp [hdeserted] at hpresent

variable {σ : Type} (process : String → StateM σ (Option Verdict))

/-- A pool in which somebody is left works on a path. -/
theorem serve_run_of_assign? {path : String} {i : Nat} {taken : Pool}
    (hassign : Walk.assign? p path = some (i, taken))
    (hend : ∀ verdict, taken.finish? i verdict = some (Feeder.served p i verdict)) (s : σ) :
    (Walk.serve process p path).run s =
      (.ok (Feeder.served p i (process path s).1), (process path s).2) := by
  have hrun : (Walk.serve process p path).run s =
      (.ok ((taken.finish? i (process path s).1).getD taken), (process path s).2) := by
    simp only [Walk.serve, hassign]
    rfl
  rw [hrun, hend, Option.getD_some]

theorem serve_run_of_isDeserted (hdeserted : p.isDeserted = true) (path : String) (s : σ) :
    (Walk.serve process p path).run s =
      (.error (Failure.other "all workers have exited"), s) := by
  simp only [Walk.serve, assign?_eq_none hdeserted]
  rfl

variable {process}

/-- A walk that is not stopped at a path goes on with the pool after that path, if it was taken. -/
theorem feed_cons_run {stop : Cancellation} {path : String} {paths : List String}
    {served : Except Failure Pool} {s s' : σ} (hstop : stop ≠ some 0)
    (hserve : (Walk.serve process p path).run s = (served, s')) :
    (Walk.feed process stop (path :: paths) p).run s =
      match served with
      | .ok q => (Walk.feed process (stop.map (· - 1)) paths q).run s'
      | .error e => (.error e, s') := by
  have hfeed : Walk.feed process stop (path :: paths) p =
      Walk.serve process p path >>= Walk.feed process (stop.map (· - 1)) paths := by
    rcases stop with _ | _ | n
    · rfl
    · exact absurd rfl hstop
    · rfl
  have hserved : StateT.run (Walk.serve process p path).run s = (served, s') := hserve
  change StateT.run (Walk.feed process stop (path :: paths) p).run s = _
  rw [hfeed, ExceptT.run_bind, StateT.run_bind, hserved]
  cases served <;> rfl

end Quiet

/-! ### The end of a walk -/

/-- To close the queue, and for workers to leave, is neither a look nor a crash. -/
def IsClosing (fs : List Event) : Prop :=
  ∀ f ∈ fs, f = .pool .closed ∨ ∃ i, f = .pool (.left i)

theorem IsClosing.looks_eq_nil {fs : List Event} (h : IsClosing fs) : looks fs = [] := by
  rw [looks, List.filterMap_eq_nil_iff]
  intro f hf
  rcases h f hf with rfl | ⟨i, rfl⟩ <;> rfl

theorem IsClosing.raised_notMem {fs : List Event} (h : IsClosing fs) : .raised ∉ fs := by
  intro hmem
  rcases h _ hmem with heq | ⟨i, heq⟩ <;> cases heq

theorem IsClosing.crash_notMem {fs : List Event} (h : IsClosing fs) (i : Nat) (path : String) :
    .pool (.ended i path none) ∉ fs := by
  intro hmem
  rcases h _ hmem with heq | ⟨j, heq⟩ <;> cases heq

/-- When nothing is going on any more, everybody leaves and the counters stay. -/
theorem exists_departure {p : Pool} (hclosed : p.isOpen = false) (hqueue : p.queue = [])
    (hfree : ∀ w ∈ p.workers, w = .idle ∨ w = .gone) {w₀ w : Feeder} {es : List Event}
    (run : Run w₀ es w) (hpool : w.pool = p) :
    ∃ fs q, Run w₀ (es ++ fs) { w with pool := q } ∧ q.Stopped ∧ q.stats = p.stats ∧
      IsClosing fs := by
  -- With every worker that leaves there is less to do.
  induction hn : p.backlog using Nat.strongRecOn generalizing p w es with
  | ind n ih =>
      subst hn hpool
      by_cases hstopped : w.pool.Stopped
      · exact ⟨[], w.pool, by simpa using run, hstopped, rfl, by simp [IsClosing]⟩
      · obtain ⟨w', hw', hne⟩ : ∃ w' ∈ w.pool.workers, w' ≠ .gone := by
          by_contra hgone
          push Not at hgone
          exact hstopped ⟨hclosed, Pool.isDeserted_iff.mpr hgone⟩
        obtain rfl : w' = .idle := (hfree w' hw').resolve_right hne
        obtain ⟨i, hi⟩ := List.mem_iff_getElem?.mp hw'
        let q : Pool := { w.pool with workers := w.pool.workers.set i .gone }
        have hstep : w.pool.Step (.left i) q :=
          .leave i (Pool.leave?_eq_some_iff.mpr ⟨⟨hi, hclosed, hqueue⟩, rfl⟩)
        have hfree' : ∀ w' ∈ q.workers, w' = .idle ∨ w' = .gone := by
          intro w' hmem
          rcases List.mem_or_eq_of_mem_set hmem with hmem | rfl
          · exact hfree w' hmem
          · exact .inr rfl
        obtain ⟨fs, r, hrun, hr, hstats, hclosing⟩ :=
          ih q.backlog (hstep.backlog_lt hclosed).2 (p := q) hclosed hqueue hfree'
            (run.step (.work hstep rfl)) rfl rfl
        exact ⟨.pool (.left i) :: fs, r, by simpa using hrun, hr, hstats,
          List.forall_mem_cons.mpr ⟨.inr ⟨i, rfl⟩, hclosing⟩⟩

/-- A feeder that stops with nothing going on returns the counters it has. -/
theorem exists_return {w₀ w : Feeder} {es : List Event} {ending : Ending} (run : Run w₀ es w)
    (hstage : w.stage = .stopping ending) (hquiet : Quiet w.pool) :
    ∃ fs v, Run w₀ (es ++ fs) v ∧ v.result? = some (ending.result w.pool.stats) ∧
      IsClosing fs := by
  have hclose : Run w₀ (es ++ [.pool .closed]) { w with pool := w.pool.close } :=
    run.step (.close hstage (.close hquiet.isOpen))
  obtain ⟨fs, q, hrun, hstopped, hq, hclosing⟩ :=
    exists_departure (p := w.pool.close) rfl hquiet.queue hquiet.free hclose rfl
  refine ⟨.pool .closed :: fs, { w with pool := q }, by simpa using hrun, ?_,
    List.forall_mem_cons.mpr ⟨.inl rfl, hclosing⟩⟩
  rw [result?_eq_some_iff]
  exact ⟨ending, hstage, hstopped, by rw [hq]; rfl⟩

/-! ### The sequential walk -/

/-- The look of the pull at which a walk is stopped is the first that shows the token raised. -/
structure LooksOf (stop : Cancellation) (n : Nat) (seen : List Bool) : Prop where
  idxOf : seen.idxOf true = min (stop.getD n) n
  mem : true ∈ seen ↔ ∃ k < n, stop = some k

theorem looksOf_zero (stop : Cancellation) : LooksOf stop 0 [] where
  idxOf := by simp
  mem := by simp

theorem looksOf_now (n : Nat) : LooksOf (some 0) (n + 1) [true] where
  idxOf := by simp
  mem := by simp

/-- Whether the walk is stopped at one of the paths after the first. -/
theorem exists_lt_succ {stop : Cancellation} (hstop : stop ≠ some 0) (n : Nat) :
    (∃ k < n + 1, stop = some k) ↔ ∃ k < n, stop.map (· - 1) = some k := by
  rcases stop with _ | _ | k
  · simp
  · exact absurd rfl hstop
  · simp

theorem LooksOf.later {stop : Cancellation} {n : Nat} {seen : List Bool}
    (h : LooksOf (stop.map (· - 1)) n seen) (hstop : stop ≠ some 0) :
    LooksOf stop (n + 1) (false :: seen) := by
  obtain ⟨hidx, hmem⟩ := h
  refine ⟨?_, ?_⟩
  · rw [List.idxOf_cons_ne _ (by decide), hidx]
    rcases stop with _ | _ | k
    · simp
    · exact absurd rfl hstop
    · simp only [Option.map_some, Option.getD_some]
      omega
  · rw [exists_lt_succ hstop, ← hmem]
    simp

/-- What the events of a sequential walk over so many paths show. The token is raised only to stop
the walk at one of the paths, and work crashes only on paths that are known to do so. -/
structure Follows (panics : String → Prop) (stop : Cancellation) (n : Nat) (fs : List Event)
    (result : Except Failure WalkStats) : Prop where
  raised : .raised ∈ fs → ∃ k < n, stop = some k
  crashed : ∀ i path, .pool (.ended i path none) ∈ fs → panics path
  seen : ∀ stats, result = .ok stats → LooksOf stop n (looks fs)

section Follows

variable {panics : String → Prop} {stop : Cancellation} {n : Nat} {fs : List Event}

theorem IsClosing.follows_exhausted (h : IsClosing fs) (result : Except Failure WalkStats) :
    Follows panics stop 0 (.exhausted :: fs) result where
  raised := by simp [h.raised_notMem]
  crashed := by simp [h.crash_notMem]
  seen := fun _ _ => by
    rw [looks_cons, h.looks_eq_nil]
    exact looksOf_zero stop

theorem IsClosing.follows_cancelled (h : IsClosing fs) (path : String)
    (result : Except Failure WalkStats) :
    Follows panics (some 0) (n + 1) (.raised :: .pulled path :: .looked true :: fs) result where
  raised := fun _ => ⟨0, by omega, rfl⟩
  crashed := by simp [h.crash_notMem]
  seen := fun _ _ => by
    rw [looks_cons, looks_cons, looks_cons, h.looks_eq_nil]
    exact looksOf_now n

theorem IsClosing.follows_refused (h : IsClosing fs) (path : String) (seen : Bool) (e : Failure) :
    Follows panics stop n (.pulled path :: .looked seen :: .refused :: fs) (.error e) where
  raised := by simp [h.raised_notMem]
  crashed := by simp [h.crash_notMem]
  seen := by simp

theorem Follows.later {result : Except Failure WalkStats}
    (h : Follows panics (stop.map (· - 1)) n fs result) (hstop : stop ≠ some 0) {path : String}
    {verdict : Option Verdict} (hverdict : verdict = none → panics path) (i : Nat) :
    Follows panics stop (n + 1) (.pulled path :: .looked false :: .pool (.accepted path) ::
      .pool (.taken i path) :: .pool (.ended i path verdict) :: fs) result where
  raised := fun hraised => (exists_lt_succ hstop n).mpr (h.raised (by simpa using hraised))
  crashed := by
    intro j path' hmem
    simp only [List.mem_cons, reduceCtorEq, Event.pool.injEq, Pool.Event.ended.injEq,
      false_or] at hmem
    rcases hmem with ⟨-, rfl, hnone⟩ | hmem
    · exact hverdict hnone.symm
    · exact h.crashed j path' hmem
  seen := fun stats hstats => by
    simp only [looks_cons]
    exact (h.seen stats hstats).later hstop

end Follows

/-- Feeding a pool in which nothing is going on is a run. The token is raised just before the pull
at which the walk is stopped. -/
theorem exists_run_of_feed {σ : Type} {process : String → StateM σ (Option Verdict)}
    {panics : String → Prop} {w₀ w : Feeder} {es : List Event} (run : Run w₀ es w)
    (hstage : w.stage = .pulling) (hlowered : w.isRaised = false) (hquiet : Quiet w.pool)
    (hpanics : ∀ path ∈ w.paths, ∀ s, (process path s).1 = none → panics path)
    (stop : Cancellation) (s : σ) :
    ∃ fs v, Run w₀ (es ++ fs) v ∧
      v.result? = some ((Walk.feed process stop w.paths w.pool).run s).1 ∧
      Follows panics stop w.paths.length fs ((Walk.feed process stop w.paths w.pool).run s).1 := by
  induction hpaths : w.paths generalizing es w stop s with
  | nil =>
      obtain ⟨fs, v, hrun, hresult, hclosing⟩ :=
        exists_return (run.step (.exhaust hstage hpaths)) rfl hquiet
      exact ⟨.exhausted :: fs, v, by simpa using hrun, hresult, hclosing.follows_exhausted _⟩
  | cons path paths ih =>
      by_cases hstop : stop = some 0
      · subst hstop
        have hlook : Run w₀ (es ++ [.raised] ++ [.pulled path] ++ [.looked true])
            { w with isRaised := true, paths, stage := .stopping (.cancelled path) } :=
          ((run.step .raise).step (.pull hstage hpaths)).step (.look rfl)
        obtain ⟨fs, v, hrun, hresult, hclosing⟩ := exists_return hlook rfl hquiet
        exact ⟨.raised :: .pulled path :: .looked true :: fs, v, by simpa using hrun, hresult,
          hclosing.follows_cancelled path _⟩
      · have hlook := (run.step (.pull hstage hpaths)).step (.look rfl)
        rw [if_neg (by simpa using hlowered)] at hlook
        cases hdeserted : w.pool.isDeserted with
        | true =>
            obtain ⟨fs, v, hrun, hresult, hclosing⟩ :=
              exists_return (hlook.step (.refuse rfl hdeserted)) rfl hquiet
            rw [feed_cons_run hstop (serve_run_of_isDeserted process hdeserted path s)]
            exact ⟨.pulled path :: .looked w.isRaised :: .refused :: fs, v, by simpa using hrun,
              hresult, hclosing.follows_refused path _ _⟩
        | false =>
            obtain ⟨i, queued, taken, hassign, haccept, htake, hend⟩ :=
              hquiet.exists_round hdeserted path
            have hserve := serve_run_of_assign? process hassign (fun v => (hend v).1) s
            have hround := ((hlook.step (.submit rfl haccept)).step (.work htake rfl)).step
              (.work (hend (process path s).1).2 rfl)
            obtain ⟨fs, v, hrun, hresult, hfollows⟩ := ih hround rfl hlowered (hquiet.served i _)
              (fun path' hpath' => hpanics path' (by simp [hpaths, hpath']))
              (stop.map (· - 1)) (process path s).2 rfl
            rw [feed_cons_run hstop hserve]
            rw [hlowered] at hrun
            exact ⟨.pulled path :: .looked false :: .pool (.accepted path) ::
              .pool (.taken i path) :: .pool (.ended i path (process path s).1) :: fs, v,
              by simpa using hrun, hresult,
              hfollows.later hstop (hpanics path (by simp [hpaths]) s) i⟩

theorem isCalm_iff {es : List Event} :
    IsCalm es ↔ ∀ i path, .pool (.ended i path none) ∉ es := by
  rw [IsCalm, Pool.crashes, poolEvents, List.filterMap_filterMap, List.filterMap_eq_nil_iff]
  constructor
  · intro h i path hmem
    simpa using h _ hmem
  · intro h e he
    rcases e with _ | _ | _ | _ | _ | (_ | _ | ⟨i, path, _ | _⟩ | _ | _)
    case pool.ended.none => exact absurd he (h i path)
    all_goals rfl

theorem study_of_process_eq_none {σ : Type} [Emitter σ] {p : Processor} {path : String} {s : σ}
    (h : (p.process path s).1 = none) : p.study path = .crashed := by
  have hrun := congrArg Prod.fst (Job.process_run p path s)
  cases hstudy : p.study path with
  | crashed => rfl
  | records rs =>
      rw [hstudy] at hrun
      dsimp only at hrun
      split at hrun <;> cases hrun.symm.trans h
  | _ =>
      rw [hstudy] at hrun
      cases hrun.symm.trans h

/-- Working on paths in order is a run, in which the work crashes only on files whose study does. -/
theorem exists_run_of_sequential {σ : Type} [Emitter σ] (o : PoolOptions) (p : Processor)
    (stop : Cancellation) (paths : List String) (s : σ) {result : Except Failure WalkStats}
    (h : ((Walk.run o p stop paths).run s).1 = result) :
    ∃ es w, Run (start o paths) es w ∧ w.result? = some result ∧
      Follows (fun path => path ∈ paths ∧ { p with keepFound := o.keepFound }.study path = .crashed)
        stop paths.length es result := by
  subst h
  have hpanics : ∀ path ∈ (start o paths).paths, ∀ s : σ,
      ({ p with keepFound := o.keepFound }.process path s).1 = none →
        path ∈ paths ∧ { p with keepFound := o.keepFound }.study path = .crashed :=
    fun _ hpath _ hnone => ⟨hpath, study_of_process_eq_none hnone⟩
  obtain ⟨es, w, hrun, hresult, hfollows⟩ :=
    exists_run_of_feed (.refl (w := start o paths)) rfl rfl (quiet_start o) hpanics stop s
  exact ⟨es, w, hrun, hresult, hfollows⟩

end CodeGraph.Feeder
