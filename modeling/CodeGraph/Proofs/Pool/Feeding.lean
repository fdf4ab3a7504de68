import CodeGraph.Proofs.Pool.Stop

/-!
The feeder of a pool beside its workers. The feeder pulls a path, looks at the token that stops a
walk, and submits the path, for which it may have to wait. The token may be raised at any moment,
and the workers go on in between as they like. What the pulls saw decides which paths are
submitted, whatever the schedule; to work on every path at once is one of the schedules.
-/

namespace CodeGraph

namespace Pool

/-! ### The steps of the workers -/

def Event.isWork : Event → Bool
  | .taken .. | .ended .. | .left _ => true
  | .accepted _ | .closed => false

/-- Only a submission looks whether the queue is open, and only to leave it has to be closed. -/
theorem Step.close_of_isWork {p q : Pool} {e : Event} (h : Step p e q) (hwork : e.isWork = true) :
    Step p.close e q.close := by
  cases h with
  | submit path h => simp [Event.isWork] at hwork
  | take i hpath h =>
      obtain ⟨path, rest, hidle, hqueue, rfl⟩ := take?_eq_some_iff.mp h
      exact .take i hpath (take?_eq_some_iff.mpr ⟨path, rest, hidle, hqueue, rfl⟩)
  | finish i v hpath h =>
      obtain ⟨path, hbusy, rfl⟩ := finish?_eq_some_iff.mp h
      refine .finish i v hpath (finish?_eq_some_iff.mpr ⟨path, hbusy, ?_⟩)
      cases v <;> rfl
  | close h => simp [Event.isWork] at hwork
  | leave i h =>
      obtain ⟨⟨hidle, -, hempty⟩, rfl⟩ := leave?_eq_some_iff.mp h
      exact .leave i (leave?_eq_some_iff.mpr ⟨⟨hidle, rfl, hempty⟩, rfl⟩)

theorem Step.backlog_lt_of_isWork {p q : Pool} {e : Event} (h : Step p e q)
    (hwork : e.isWork = true) : q.backlog < p.backlog :=
  ((h.close_of_isWork hwork).backlog_lt rfl).2

theorem Step.isOpen_of_isWork {p q : Pool} {e : Event} (h : Step p e q)
    (hwork : e.isWork = true) : q.isOpen = p.isOpen := by
  cases h with
  | submit path h => simp [Event.isWork] at hwork
  | take i hpath h =>
      obtain ⟨path, rest, -, -, rfl⟩ := take?_eq_some_iff.mp h
      rfl
  | finish i v hpath h =>
      obtain ⟨path, -, rfl⟩ := finish?_eq_some_iff.mp h
      cases v <;> rfl
  | close h => simp [Event.isWork] at hwork
  | leave i h =>
      obtain ⟨-, rfl⟩ := leave?_eq_some_iff.mp h
      rfl

theorem Step.capacity_eq {p q : Pool} {e : Event} (h : Step p e q) : q.capacity = p.capacity := by
  cases h with
  | submit path h =>
      obtain ⟨-, rfl⟩ := submit?_eq_some_iff.mp h
      rfl
  | take i hpath h =>
      obtain ⟨path, rest, -, -, rfl⟩ := take?_eq_some_iff.mp h
      rfl
  | finish i v hpath h =>
      obtain ⟨path, -, rfl⟩ := finish?_eq_some_iff.mp h
      cases v <;> rfl
  | close h => rfl
  | leave i h =>
      obtain ⟨-, rfl⟩ := leave?_eq_some_iff.mp h
      rfl

theorem Run.capacity_eq {p q : Pool} {es : List Event} (run : Run p es q) :
    q.capacity = p.capacity := by
  induction run with
  | refl => rfl
  | step _ h ih => exact h.capacity_eq.trans ih

/-- While a path waits and somebody is there, a worker can go on, and it does not have to crash. -/
theorem exists_work_of_queue_ne_nil {p : Pool} (hqueue : p.queue ≠ [])
    (hpresent : p.isDeserted = false) :
    ∃ e q, Step p e q ∧ e.isWork = true ∧ e.crash? = none := by
  obtain ⟨path, rest, hqueue⟩ := List.exists_cons_of_ne_nil hqueue
  have hsome : ∃ w ∈ p.workers, w ≠ .gone := by
    by_contra hgone
    push Not at hgone
    rw [isDeserted_iff.mpr hgone] at hpresent
    simp at hpresent
  obtain ⟨w, hw, hne⟩ := hsome
  obtain ⟨i, hi⟩ := List.mem_iff_getElem?.mp hw
  cases w with
  | idle =>
      exact ⟨.taken i path, _, .take i (by rw [hqueue]; rfl)
        (take?_eq_some_iff.mpr ⟨path, rest, hi, hqueue, rfl⟩), rfl, rfl⟩
  | busy held =>
      exact ⟨.ended i held (some (.ok .processed)), _, .finish i _ hi
        (finish?_eq_some_iff.mpr ⟨held, hi, rfl⟩), rfl, rfl⟩
  | gone => exact absurd rfl hne

/-- As long as the queue is open, the pool is deserted only if every worker crashed. -/
theorem Run.crashes_ne_nil_of_isDeserted {o : PoolOptions} {es : List Event} {p : Pool}
    (run : Run (start o) es p) (hopen : p.isOpen = true) (h : p.isDeserted = true) :
    crashes es ≠ [] := by
  have hall := run.accounts.crashes_of_isOpen h hopen
  exact List.ne_nil_of_length_pos (by omega)

/-- The counters of a stopped pool leave out nothing if no work crashed. -/
theorem Run.settled_of_stopped {o : PoolOptions} {es : List Event} {p : Pool}
    (run : Run (start o) es p) (calm : crashes es = []) (hstop : p.Stopped) :
    p.stats.settled = p.stats.submitted := by
  have acc := run.accounts
  have hsum := acc.submitted_eq hstop.2
  have hempty : p.queue = [] := by
    by_contra hqueue
    have hall := acc.crashes_of_queue_ne_nil hstop.2 hqueue
    rw [calm, List.length_nil] at hall
    omega
  rw [calm, hempty, List.length_nil] at hsum
  exact hsum.symm

instance (p : Pool) : Decidable p.Stopped :=
  inferInstanceAs (Decidable (_ ∧ _))

end Pool

/-! ### The feeder -/

/-- Why a feeder stopped, with the path that it had pulled in vain. -/
inductive Ending where
  | exhausted
  | cancelled (path : String)
  | refused (path : String)

inductive Stage where
  | pulling
  /-- To look at the token with a path in hand. -/
  | looking (path : String)
  /-- To submit the path, which waits for room. -/
  | submitting (path : String)
  /-- To close the queue and wait for the workers. -/
  | stopping (ending : Ending)

/-- A pool with the one who feeds it. -/
structure Feeder where
  pool : Pool
  /-- The paths that have not been pulled. -/
  paths : List String
  stage : Stage := .pulling
  /-- Whether the token has been raised. -/
  isRaised : Bool := false

/-- What a walk returns after the workers are gone. -/
def Ending.result (stats : Stats) : Ending → Except Failure WalkStats
  | .exhausted => .ok ⟨stats, false⟩
  | .cancelled _ => .ok ⟨stats, true⟩
  | .refused _ => .error (Failure.other "all workers have exited")

/-- The pulled path that has not been submitted. -/
def Stage.held : Stage → List String
  | .pulling | .stopping .exhausted => []
  | .looking path | .submitting path => [path]
  | .stopping (.cancelled path) | .stopping (.refused path) => [path]

def Stage.seen : Stage → List Bool
  | .pulling | .looking _ | .stopping .exhausted => []
  | .submitting _ | .stopping (.refused _) => [false]
  | .stopping (.cancelled _) => [true]

namespace Feeder

def start (o : PoolOptions) (paths : List String) : Feeder :=
  { pool := Pool.start o, paths }

/-- What is returned, once the workers are gone. -/
def result? (w : Feeder) : Option (Except Failure WalkStats) :=
  match w.stage with
  | .stopping ending =>
      if w.pool.Stopped then some (ending.result w.pool.stats) else none
  | _ => none

theorem result?_eq_some_iff {w : Feeder} {result : Except Failure WalkStats} :
    w.result? = some result ↔
      ∃ ending, w.stage = .stopping ending ∧ w.pool.Stopped ∧
        result = ending.result w.pool.stats := by
  rw [result?]
  cases w.stage with
  | stopping ending =>
      simp only [Option.ite_none_right_eq_some, Option.some.injEq, Stage.stopping.injEq]
      constructor
      · rintro ⟨hstopped, rfl⟩
        exact ⟨ending, rfl, hstopped, rfl⟩
      · rintro ⟨_, rfl, hstopped, rfl⟩
        exact ⟨hstopped, rfl⟩
  | _ => simp

inductive Event where
  /-- Somebody raises the token. -/
  | raised
  | pulled (path : String)
  /-- There is nothing more to pull. -/
  | exhausted
  /-- The feeder looks at the token. -/
  | looked (seen : Bool)
  /-- The path in hand finds nobody who could take it. -/
  | refused
  | pool (e : Pool.Event)

/-- One step of the feeder, of a worker, or of the one who raises the token. -/
inductive Step : Feeder → Event → Feeder → Prop
  | raise {w : Feeder} : Step w .raised { w with isRaised := true }
  | pull {w : Feeder} {path : String} {rest : List String} (hstage : w.stage = .pulling)
      (hpaths : w.paths = path :: rest) :
      Step w (.pulled path) { w with paths := rest, stage := .looking path }
  | exhaust {w : Feeder} (hstage : w.stage = .pulling) (hpaths : w.paths = []) :
      Step w .exhausted { w with stage := .stopping .exhausted }
  | look {w : Feeder} {path : String} (hstage : w.stage = .looking path) :
      Step w (.looked w.isRaised)
        { w with stage := if w.isRaised then .stopping (.cancelled path) else .submitting path }
  | submit {w : Feeder} {path : String} {q : Pool} (hstage : w.stage = .submitting path)
      (h : w.pool.Step (.accepted path) q) :
      Step w (.pool (.accepted path)) { w with pool := q, stage := .pulling }
  | refuse {w : Feeder} {path : String} (hstage : w.stage = .submitting path)
      (h : w.pool.isDeserted = true) :
      Step w .refused { w with stage := .stopping (.refused path) }
  | close {w : Feeder} {ending : Ending} {q : Pool} (hstage : w.stage = .stopping ending)
      (h : w.pool.Step .closed q) : Step w (.pool .closed) { w with pool := q }
  | work {w : Feeder} {e : Pool.Event} {q : Pool} (h : w.pool.Step e q)
      (hwork : e.isWork = true) : Step w (.pool e) { w with pool := q }

inductive Run (w : Feeder) : List Event → Feeder → Prop
  | refl : Run w [] w
  | step {es : List Event} {v u : Feeder} {e : Event} (run : Run w es v) (h : Step v e u) :
      Run w (es ++ [e]) u

namespace Event

@[simp] def pulled? : Event → Option String
  | .pulled path => some path
  | _ => none

@[simp] def seen? : Event → Option Bool
  | .looked seen => some seen
  | _ => none

@[simp] def pool? : Event → Option Pool.Event
  | .pool e => some e
  | _ => none

/-- Whether the event is not of the one who raises the token. -/
@[simp] def isProgress : Event → Bool
  | .raised => false
  | _ => true

end Event

def pulls (es : List Event) : List String :=
  es.filterMap Event.pulled?

/-- What the looks at the token showed, one look after each pull. -/
def looks (es : List Event) : List Bool :=
  es.filterMap Event.seen?

def poolEvents (es : List Event) : List Pool.Event :=
  es.filterMap Event.pool?

def submissions (es : List Event) : List String :=
  Pool.acceptedPaths (poolEvents es)

/-- No work on a file crashes. -/
def IsCalm (es : List Event) : Prop :=
  Pool.crashes (poolEvents es) = []

section Histories

variable (es fs : List Event) (e : Event)

@[simp] theorem pulls_concat : pulls (es ++ [e]) = pulls es ++ e.pulled?.toList :=
  filterMap_concat es e _

@[simp] theorem looks_concat : looks (es ++ [e]) = looks es ++ e.seen?.toList :=
  filterMap_concat es e _

theorem looks_cons : looks (e :: es) = e.seen?.toList ++ looks es := by
  rw [looks, List.filterMap_cons]
  cases e.seen? <;> rfl

@[simp] theorem poolEvents_concat : poolEvents (es ++ [e]) = poolEvents es ++ e.pool?.toList :=
  filterMap_concat es e _

@[simp] theorem submissions_concat :
    submissions (es ++ [e]) = submissions es ++ (e.pool?.bind Pool.Event.accepted?).toList := by
  rw [submissions, poolEvents_concat]
  cases h : e.pool? <;> simp [submissions]

theorem poolEvents_append : poolEvents (es ++ fs) = poolEvents es ++ poolEvents fs :=
  List.filterMap_append

theorem isCalm_pool {e : Pool.Event} (h : e.crash? = none) : IsCalm [.pool e] := by
  simpa [IsCalm, poolEvents, Pool.crashes] using h

theorem isCalm_append : IsCalm (es ++ fs) ↔ IsCalm es ∧ IsCalm fs := by
  rw [IsCalm, poolEvents_append, Pool.crashes, List.filterMap_append, List.append_eq_nil_iff]
  rfl

end Histories

/-! ### The feeder explained by its history -/

/-- What a stage says of the paths, of the queue and of the workers. -/
def Fits (es : List Event) (w : Feeder) : Prop :=
  match w.stage with
  | .stopping .exhausted => w.paths = []
  | .stopping (.cancelled _) => True
  | .stopping (.refused _) => ¬IsCalm es
  | _ => w.pool.isOpen = true

/-- A closed queue matters only before the feeder stops, and a crash is never undone. -/
theorem Fits.of_eq {es fs : List Event} {w v : Feeder} (h : Fits es w)
    (hstage : v.stage = w.stage) (hpaths : v.paths = w.paths)
    (hopen : v.pool.isOpen = w.pool.isOpen ∨ ∃ ending, w.stage = .stopping ending) :
    Fits (es ++ fs) v := by
  rw [Fits] at h ⊢
  rw [hstage, hpaths]
  split at h
  · exact h
  · trivial
  · exact fun hcalm => h ((isCalm_append es fs).mp hcalm).1
  · rename_i hexhausted hcancelled hrefused
    rcases hopen with hopen | ⟨ending, hending⟩
    · exact hopen.trans h
    · cases ending with
      | exhausted => exact absurd hending hexhausted
      | cancelled path => exact absurd hending (hcancelled path)
      | refused path => exact absurd hending (hrefused path)

structure Accounts (o : PoolOptions) (paths : List String) (es : List Event) (w : Feeder) :
    Prop where
  pool : Pool.Run (Pool.start o) (poolEvents es) w.pool
  sequence : pulls es ++ w.paths = paths
  -- Of the pulled paths only the last one may not have been submitted.
  pulled : pulls es = submissions es ++ w.stage.held
  looked : looks es = List.replicate (submissions es).length false ++ w.stage.seen
  token : w.isRaised = true ↔ Event.raised ∈ es
  fits : Fits es w

theorem accounts_start (o : PoolOptions) (paths : List String) :
    Accounts o paths [] (start o paths) where
  pool := .refl
  sequence := rfl
  pulled := rfl
  looked := rfl
  token := by simp [start]
  fits := rfl

namespace Accounts

variable {o : PoolOptions} {paths : List String} {es : List Event} {w v : Feeder}

theorem isOpen (acc : Accounts o paths es w) (h : ∀ ending, w.stage ≠ .stopping ending) :
    w.pool.isOpen = true := by
  have hfits := acc.fits
  rw [Fits] at hfits
  split at hfits
  · exact absurd ‹_› (h _)
  · exact absurd ‹_› (h _)
  · exact absurd ‹_› (h _)
  · exact hfits

/-- A step of the pool alone that is no submission. -/
theorem poolStep {e : Pool.Event} {q : Pool} (acc : Accounts o paths es w)
    (h : w.pool.Step e q) (hother : submissions (es ++ [.pool e]) = submissions es)
    (hopen : q.isOpen = w.pool.isOpen ∨ ∃ ending, w.stage = .stopping ending) :
    Accounts o paths (es ++ [.pool e]) { w with pool := q } where
  pool := by simpa using acc.pool.step h
  sequence := by simpa using acc.sequence
  pulled := by rw [hother]; simpa using acc.pulled
  looked := by rw [hother]; simpa using acc.looked
  token := by simpa using acc.token
  fits := acc.fits.of_eq rfl rfl hopen

/-- A step keeps the accounts. -/
theorem step {e : Event} (acc : Accounts o paths es w) (h : Step w e v) :
    Accounts o paths (es ++ [e]) v := by
  cases h with
  | raise =>
      constructor
      case pool => simpa using acc.pool
      case sequence => simpa using acc.sequence
      case pulled => simpa using acc.pulled
      case looked => simpa using acc.looked
      case token => simp
      case fits => exact acc.fits.of_eq rfl rfl (.inl rfl)
  | pull hstage hpaths =>
      constructor
      case pool => simpa using acc.pool
      case sequence => simpa [hpaths] using acc.sequence
      case pulled => simpa [hstage, Stage.held] using acc.pulled
      case looked => simpa [hstage, Stage.seen] using acc.looked
      case token => simpa using acc.token
      case fits => exact acc.isOpen (by simp [hstage])
  | exhaust hstage hpaths =>
      constructor
      case pool => simpa using acc.pool
      case sequence => simpa using acc.sequence
      case pulled => simpa [hstage, Stage.held] using acc.pulled
      case looked => simpa [hstage, Stage.seen] using acc.looked
      case token => simpa using acc.token
      case fits => exact hpaths
  | look hstage =>
      have hopen := acc.isOpen (by simp [hstage])
      constructor
      case pool => simpa using acc.pool
      case sequence => simpa using acc.sequence
      case pulled =>
        have hpulled := acc.pulled
        cases hraised : w.isRaised <;> simpa [hstage, hraised, Stage.held] using hpulled
      case looked =>
        have hlooked := acc.looked
        cases hraised : w.isRaised <;> simpa [hstage, hraised, Stage.seen] using hlooked
      case token => simpa using acc.token
      case fits => cases w.isRaised <;> simp [Fits, hopen]
  | @submit path q hstage h =>
      have hopen : q.isOpen = true := by
        cases h with
        | submit path h =>
            obtain ⟨⟨hopen, -, -⟩, rfl⟩ := Pool.submit?_eq_some_iff.mp h
            exact hopen
      constructor
      case pool => simpa using acc.pool.step h
      case sequence => simpa using acc.sequence
      case pulled => simpa [hstage, Stage.held] using acc.pulled
      case looked => simpa [hstage, Stage.seen, List.replicate_add] using acc.looked
      case token => simpa using acc.token
      case fits => exact hopen
  | refuse hstage h =>
      have hcrash := acc.pool.crashes_ne_nil_of_isDeserted (acc.isOpen (by simp [hstage])) h
      constructor
      case pool => simpa using acc.pool
      case sequence => simpa using acc.sequence
      case pulled => simpa [hstage, Stage.held] using acc.pulled
      case looked => simpa [hstage, Stage.seen] using acc.looked
      case token => simpa using acc.token
      case fits => exact fun hcalm => hcrash ((isCalm_append es _).mp hcalm).1
  | close hstage h => exact acc.poolStep h (by simp) (.inr ⟨_, hstage⟩)
  | @work e q h hwork =>
      have hother : submissions (es ++ [.pool e]) = submissions es := by
        cases e <;> simp [Pool.Event.isWork] at hwork ⊢
      exact acc.poolStep h hother (.inl (h.isOpen_of_isWork hwork))

end Accounts

/-- Every run keeps the accounts, whatever the schedule. -/
theorem Run.accounts {o : PoolOptions} {paths : List String} {es : List Event} {w : Feeder}
    (run : Run (start o paths) es w) : Accounts o paths es w := by
  induction run with
  | refl => exact accounts_start o paths
  | step _ h ih => exact ih.step h

/-- A look shows the token raised exactly if somebody raised it before. -/
theorem Run.seen_iff_raised {o : PoolOptions} {paths : List String} {es : List Event} {w : Feeder}
    (run : Run (start o paths) es w) {before after : List Event} {seen : Bool}
    (h : es = before ++ .looked seen :: after) : seen = true ↔ Event.raised ∈ before := by
  induction run generalizing after with
  | refl => simp at h
  | @step es v u e run hstep ih =>
      rcases after.eq_nil_or_concat with rfl | ⟨after, last, rfl⟩
      · obtain ⟨rfl, he⟩ := List.append_inj' h rfl
        obtain rfl : e = .looked seen := by simpa using he
        cases hstep with
        | look hstage => exact run.accounts.token
      · rw [List.concat_eq_append, ← List.cons_append, ← List.append_assoc] at h
        exact ih (List.append_inj' h rfl).1

/-! ### A walk comes to an end -/

/-- The number of steps that a feeder and its workers can still make at most. -/
def remaining (w : Feeder) : Nat :=
  w.pool.backlog +
    match w.stage with
    | .pulling => 5 * w.paths.length + 2
    | .looking _ => 5 * w.paths.length + 6
    | .submitting _ => 5 * w.paths.length + 5
    | .stopping _ => if w.pool.isOpen then 1 else 0

theorem Step.remaining_lt {w v : Feeder} {e : Event} (h : Step w e v) :
    v.remaining + (if e.isProgress then 1 else 0) ≤ w.remaining := by
  cases h with
  | raise => exact Nat.le_refl _
  | pull hstage hpaths =>
      simp only [remaining, hstage, hpaths, List.length_cons, Event.isProgress, if_true]
      omega
  | exhaust hstage hpaths =>
      simp only [remaining, hstage, hpaths, List.length_nil, Event.isProgress, if_true]
      split <;> omega
  | look hstage =>
      simp only [remaining, hstage, Event.isProgress, if_true]
      cases w.isRaised <;> simp only [if_true, Bool.false_eq_true, if_false]
      · omega
      · split <;> omega
  | submit hstage h =>
      cases h with
      | submit path h =>
          obtain ⟨-, rfl⟩ := Pool.submit?_eq_some_iff.mp h
          simp only [remaining, hstage, Pool.backlog, List.length_append, List.length_singleton,
            Event.isProgress, if_true]
          omega
  | refuse hstage h =>
      simp only [remaining, hstage, Event.isProgress, if_true]
      split <;> omega
  | close hstage h =>
      cases h with
      | close hopen => simp [remaining, hstage, hopen, Pool.close, Pool.backlog]
  | work h hwork =>
      have hlt := h.backlog_lt_of_isWork hwork
      have hopen := h.isOpen_of_isWork hwork
      simp only [remaining, hopen, Event.isProgress, if_true]
      omega

theorem Run.countP_add_remaining_le {w v : Feeder} {es : List Event} (run : Run w es v) :
    es.countP Event.isProgress + v.remaining ≤ w.remaining := by
  induction run with
  | refl => simp
  | @step es v u e _ h ih =>
      have hlt := h.remaining_lt
      rw [List.countP_append, List.countP_singleton]
      omega

theorem remaining_start (o : PoolOptions) (paths : List String) :
    (start o paths).remaining = 5 * paths.length + 2 + max o.workers 1 := by
  simp only [remaining, start, Pool.start, Pool.backlog, Pool.load, List.length_nil,
    List.map_replicate, List.sum_replicate_nat]
  omega

/-- Before a walk returns, the feeder or a worker can go on, and nobody has to crash for it: a
feeder that finds the queue full has a worker that can make room. -/
theorem exists_step_of_not_returned {o : PoolOptions} {paths : List String} {es : List Event}
    {w : Feeder} (run : Run (start o paths) es w) (h : w.result? = none) :
    ∃ e v, Step w e v ∧ e.isProgress = true ∧ IsCalm [e] := by
  have acc := run.accounts
  cases hstage : w.stage with
  | pulling =>
      cases hpaths : w.paths with
      | nil => exact ⟨_, _, .exhaust hstage hpaths, rfl, rfl⟩
      | cons path rest => exact ⟨_, _, .pull hstage hpaths, rfl, rfl⟩
  | looking path => exact ⟨_, _, .look hstage, rfl, rfl⟩
  | submitting path =>
      have hopen := acc.isOpen (by simp [hstage])
      have hcapacity : 1 ≤ w.pool.capacity := by
        rw [acc.pool.capacity_eq, Pool.start]
        exact Nat.le_max_right _ _
      cases hdeserted : w.pool.isDeserted with
      | true => exact ⟨_, _, .refuse hstage hdeserted, rfl, rfl⟩
      | false =>
          rcases Nat.lt_or_ge w.pool.queue.length w.pool.capacity with hroom | hfull
          · exact ⟨_, _, .submit hstage (.submit path
              (Pool.submit?_eq_some_iff.mpr ⟨⟨hopen, hroom, hdeserted⟩, rfl⟩)), rfl, rfl⟩
          · have hqueue : w.pool.queue ≠ [] := List.ne_nil_of_length_pos (by omega)
            obtain ⟨e, q, hstep, hwork, hcalm⟩ := Pool.exists_work_of_queue_ne_nil hqueue hdeserted
            exact ⟨_, _, .work hstep hwork, rfl, isCalm_pool hcalm⟩
  | stopping ending =>
      cases hopen : w.pool.isOpen with
      | true => exact ⟨_, _, .close hstage (.close hopen), rfl, rfl⟩
      | false =>
          have hnot : ¬w.pool.Stopped := by
            intro hstopped
            simp [result?_eq_some_iff.mpr ⟨ending, hstage, hstopped, rfl⟩] at h
          obtain ⟨e, q, hstep, hcalm⟩ := Pool.exists_step_of_not_stopped hopen hnot
          have hwork : e.isWork = true := by
            cases hstep with
            | submit path h =>
                have hsubmit := (Pool.submit?_eq_some_iff.mp h).1.1
                simp [hopen] at hsubmit
            | close h => simp [hopen] at h
            | _ => rfl
          exact ⟨_, _, .work hstep hwork, rfl, isCalm_pool hcalm⟩

/-! ### What is returned -/

/-- In a run in which all work returns, a walk that returns has submitted the paths that were
pulled before the token was first seen raised, and it says whether that was seen. -/
theorem Run.submissions_of_returned {o : PoolOptions} {paths : List String} {es : List Event}
    {w : Feeder} {result : Except Failure WalkStats} (run : Run (start o paths) es w)
    (calm : IsCalm es) (h : w.result? = some result) :
    ∃ stats, result = .ok stats ∧ stats.pool = w.pool.stats ∧ w.pool.Stopped ∧
      pulls es = paths.take (looks es).length ∧
      submissions es = paths.take ((looks es).idxOf true) ∧
      (submissions es).length = (looks es).idxOf true ∧
      (stats.cancelled = true ↔ true ∈ looks es) ∧
      (stats.cancelled = false → submissions es = paths) := by
  have acc := run.accounts
  obtain ⟨ending, hstage, hstopped, rfl⟩ := result?_eq_some_iff.mp h
  have hfits := acc.fits
  have hpulled := acc.pulled
  have hlooked := acc.looked
  have hsequence := acc.sequence
  rw [Fits, hstage] at hfits
  rw [hstage] at hpulled hlooked
  have hnone (n : Nat) : true ∉ List.replicate n false := by simp [List.mem_replicate]
  cases ending with
  | exhausted =>
      simp only [Stage.held, Stage.seen, List.append_nil] at hfits hpulled hlooked
      rw [hpulled, hfits, List.append_nil] at hsequence
      have hidx : (looks es).idxOf true = paths.length := by
        rw [List.idxOf_eq_length (by rw [hlooked]; exact hnone _), hlooked, List.length_replicate,
          hsequence]
      refine ⟨_, rfl, rfl, hstopped, ?_, ?_, ?_, ?_, fun _ => hsequence⟩
      · rw [hpulled, hlooked, List.length_replicate, hsequence, List.take_length]
      · rw [hidx, hsequence, List.take_length]
      · rw [hidx, hsequence]
      · simp [hlooked, hnone]
  | cancelled path =>
      simp only [Stage.held, Stage.seen] at hpulled hlooked
      have hidx : (looks es).idxOf true = (submissions es).length := by
        rw [hlooked, List.idxOf_append_of_notMem (hnone _)]
        simp
      refine ⟨_, rfl, rfl, hstopped, ?_, ?_, hidx.symm, ?_, by simp⟩
      · have hlen : (looks es).length = (pulls es).length := by simp [hlooked, hpulled]
        rw [← hsequence, hlen, List.take_left]
      · rw [hidx, ← hsequence, hpulled, List.append_assoc, List.take_left]
      · simp [hlooked]
  | refused path => exact absurd calm hfits

end Feeder

end CodeGraph
