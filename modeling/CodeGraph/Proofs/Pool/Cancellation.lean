import CodeGraph.Proofs.Pool.Sequential

/-!
A walk takes a clean beginning of its paths. Whenever the token is raised and however the workers
are scheduled, the submitted paths are those that were pulled before the token was first seen
raised, the walk says whether that was seen, and the counters account for each submitted path. The
walk that works on every path at once is one of these runs.
-/

namespace CodeGraph.Feeder

/-- Working on paths in order is a run, unless the study of a file crashes. -/
theorem exists_run_of_walk {σ : Type} [Emitter σ] (o : PoolOptions) (p : Processor)
    (stop : Cancellation) (paths : List String) (s : σ)
    (returns : ∀ path ∈ paths, { p with keepFound := o.keepFound }.study path ≠ .crashed) :
    ∃ es w stats, Run (start o paths) es w ∧ IsCalm es ∧ w.result? = some (.ok stats) ∧
      ((Walk.run o p stop paths).run s).1 = .ok stats ∧
      LooksOf stop paths.length (looks es) := by
  obtain ⟨es, w, run, hresult, hfollows⟩ := exists_run_of_sequential o p stop paths s rfl
  have calm : IsCalm es := isCalm_iff.mpr fun i path hcrash =>
    returns path (hfollows.crashed i path hcrash).1 (hfollows.crashed i path hcrash).2
  obtain ⟨stats, hok, -⟩ := run.submissions_of_returned calm hresult
  exact ⟨es, w, stats, run, calm, hresult.trans (congrArg some hok), hok,
    hfollows.seen stats hok⟩

/-- A walk over any paths, with any options, whenever the token is raised and however feeder and
workers are interleaved. A look shows the token raised exactly if it was raised before. The walk
is never stuck and makes a bounded number of steps. If no work crashes, it returns without an
error, and then the submitted paths are those pulled before the first look that showed the token
raised; it says that it was cancelled exactly if there was such a look, and otherwise has
submitted all paths; and the counters account for each submitted path. The sequential walk is one
of these runs, in which that look is the one of the path at which the walk is to stop. -/
theorem walk_submits_prefix_of_pulled (o : PoolOptions) (paths : List String) :
    (∀ es w, Run (start o paths) es w →
      (∀ before seen after, es = before ++ .looked seen :: after →
        (seen = true ↔ Event.raised ∈ before)) ∧
      (w.result? = none → ∃ e v, Step w e v ∧ e.isProgress = true ∧ IsCalm [e]) ∧
      es.countP Event.isProgress ≤ 5 * paths.length + 2 + max o.workers 1 ∧
      (IsCalm es → ∀ result, w.result? = some result → ∃ stats, result = .ok stats ∧
        pulls es = paths.take (looks es).length ∧
        submissions es = paths.take ((looks es).idxOf true) ∧
        (stats.cancelled = true ↔ true ∈ looks es) ∧
        (stats.cancelled = false → submissions es = paths) ∧
        stats.pool.settled = stats.pool.submitted ∧
        stats.pool.submitted = (submissions es).length ∧
        (submissions es).length = (looks es).idxOf true)) ∧
    (∀ {σ : Type} [Emitter σ] (p : Processor) (stop : Cancellation) (s : σ),
      (∀ path ∈ paths, { p with keepFound := o.keepFound }.study path ≠ .crashed) →
      ∃ es w stats, Run (start o paths) es w ∧ IsCalm es ∧ w.result? = some (.ok stats) ∧
        ((Walk.run o p stop paths).run s).1 = .ok stats ∧
        (looks es).idxOf true = min (stop.getD paths.length) paths.length ∧
        (true ∈ looks es ↔ ∃ n < paths.length, stop = some n)) := by
  refine ⟨fun es w run => ⟨fun _ _ _ h => run.seen_iff_raised h, exists_step_of_not_returned run,
    ?_, fun calm result hresult => ?_⟩, fun p stop s returns => ?_⟩
  · have hle := run.countP_add_remaining_le
    rw [remaining_start] at hle
    omega
  · obtain ⟨stats, hok, hstats, hstopped, hpulls, hsubmissions, hlength, hcancelled, hall⟩ :=
      run.submissions_of_returned calm hresult
    have acc := run.accounts.pool
    refine ⟨stats, hok, hpulls, hsubmissions, hcancelled, hall, ?_, ?_, hlength⟩
    · rw [hstats]
      exact acc.settled_of_stopped calm hstopped
    · rw [hstats]
      exact acc.accounts.submitted
  · obtain ⟨es, w, stats, run, calm, hresult, hwalk, hlooks⟩ :=
      exists_run_of_walk o p stop paths s returns
    exact ⟨es, w, stats, run, calm, hresult, hwalk, hlooks.idxOf, hlooks.mem⟩

/-- One worker and room for one path. The token is raised while the second path waits for room;
that path is still submitted, and the third one is the first to see the token. -/
theorem raised_while_queue_is_full :
    ∃ es w, Run (start { workers := 1, queueCapacity := 1 } ["a.ts", "b.md", "c.ts", "d.ts"]) es w ∧
      IsCalm es ∧ looks es = [false, false, true] ∧
      (∃ stats, w.result? = some (.ok stats) ∧ stats.cancelled = true ∧
        stats.pool = ⟨2, 1, 1, 0, 0⟩) ∧
      submissions es = ["a.ts", "b.md"] := by
  let w₀ := start { workers := 1, queueCapacity := 1 } ["a.ts", "b.md", "c.ts", "d.ts"]
  let waiting : List Event :=
    [.pulled "a.ts", .looked false, .pool (.accepted "a.ts"), .pulled "b.md", .looked false]
  have hwaiting : Run w₀ waiting
      { pool := ⟨1, ["a.ts"], true, [.idle], { submitted := 1 }⟩
        paths := ["c.ts", "d.ts"], stage := .submitting "b.md" } :=
    ((((Run.refl.step (.pull rfl rfl)).step (.look rfl)).step (.submit rfl (.submit _ rfl))).step
      (.pull rfl rfl)).step (.look rfl)
  let seen : List Event := waiting ++
    [.raised, .pool (.taken 0 "a.ts"), .pool (.accepted "b.md"), .pulled "c.ts", .looked true]
  have hseen : Run w₀ seen
      { pool := ⟨1, ["b.md"], true, [.busy "a.ts"], { submitted := 2 }⟩
        paths := ["d.ts"], stage := .stopping (.cancelled "c.ts"), isRaised := true } :=
    ((((hwaiting.step .raise).step (.work (.take 0 rfl rfl) rfl)).step
      (.submit rfl (.submit _ rfl))).step (.pull rfl rfl)).step (.look rfl)
  let drained : List Event := seen ++
    [.pool .closed, .pool (.ended 0 "a.ts" (some (.ok .processed))), .pool (.taken 0 "b.md"),
      .pool (.ended 0 "b.md" (some (.ok .skipped))), .pool (.left 0)]
  have hdrained : Run w₀ drained
      { pool := ⟨1, [], false, [.gone], ⟨2, 1, 1, 0, 0⟩⟩
        paths := ["d.ts"], stage := .stopping (.cancelled "c.ts"), isRaised := true } :=
    ((((hseen.step (.close rfl (.close rfl))).step (.work (.finish 0 _ rfl rfl) rfl)).step
      (.work (.take 0 rfl rfl) rfl)).step (.work (.finish 0 _ rfl rfl) rfl)).step
      (.work (.leave 0 rfl) rfl)
  obtain ⟨stats, -, -, hsubmissions, -⟩ :=
    ((walk_submits_prefix_of_pulled _ _).1 _ _ hdrained).2.2.2 rfl _ rfl
  exact ⟨_, _, hdrained, rfl, rfl, ⟨_, rfl, rfl, rfl⟩, hsubmissions⟩

end CodeGraph.Feeder
