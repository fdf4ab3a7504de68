import CodeGraph.Pipeline.Pool
import Mathlib.Data.List.Basic

/-!
The work on one file, call by call. A worker that has studied a file hands its records to the
output one after the other and gives up at the first that is refused, so at any moment what it has
handed over is the beginning of what it has to hand over. Left alone, the calls of a job do what
`Processor.process` does.
-/

namespace CodeGraph

/-- The records that a study leaves to be emitted. -/
def Study.pending : Study → List Record
  | .records rs => rs
  | _ => []

/-- What is to be emitted for a file: the fragment that the analysis finds in it, or what was
found before a failure if that is kept. -/
def Processor.Yields (p : Processor) (path language : String) (f : Fragment) : Prop :=
  ∃ analyzer content, p.registry.lookupPath? path = some analyzer ∧ analyzer.language = language ∧
    p.read path = .ok content ∧
    (analyzer.analyze ⟨path, content.bytes⟩ content.tree = .ok f ∨
      p.keepFound = true ∧ ∃ e, e.found? = some f ∧
        analyzer.analyze ⟨path, content.bytes⟩ content.tree = .error (.failure e))

theorem Processor.study_eq_records_iff {p : Processor} {path : String} {rs : List Record} :
    p.study path = .records rs ↔
      ∃ language f, p.Yields path language f ∧ rs = records p.embedder path language f := by
  constructor
  · intro h
    unfold study at h
    split at h
    · simp at h
    · rename_i analyzer hlookup
      split at h
      · simp at h
      · rename_i content hread
        split at h
        · rename_i f hf
          obtain rfl := Study.records.inj h
          exact ⟨_, f, ⟨analyzer, content, hlookup, rfl, hread, .inl hf⟩, rfl⟩
        · simp at h
        · rename_i e he
          split at h
          · rename_i f hfound
            split at h
            · rename_i hkeep
              obtain rfl := Study.records.inj h
              exact ⟨_, f, ⟨analyzer, content, hlookup, rfl, hread, .inr ⟨hkeep, e, hfound, he⟩⟩,
                rfl⟩
            · simp at h
          · simp at h
  · rintro ⟨language, f, ⟨analyzer, content, hlookup, rfl, hread, hf | ⟨hkeep, e, hfound, he⟩⟩, rfl⟩
    · simp only [study, hlookup, hread, hf]
    · simp only [study, hlookup, hread, he, hfound, hkeep, if_true]

/-- The work on one path: what the study of the file came to, the records that the output has
taken, those that are left, and the failure of the output that ended the work. -/
structure Job where
  path : String
  study : Study
  sent : List Record := []
  rest : List Record
  failure : Option Failure := none

namespace Job

def ofPath (p : Processor) (path : String) : Job where
  path
  study := p.study path
  rest := (p.study path).pending

variable {σ : Type} [Emitter σ]

/-- The next call of the output, with what the output has taken by it. -/
def call (j : Job) (sink : σ) : Job × List Record × σ :=
  match j.failure, j.rest with
  | none, r :: rest =>
      match (Emitter.emit r).run sink with
      | (.ok (), sink) => ({ j with sent := j.sent ++ [r], rest }, [r], sink)
      | (.error e, sink) => ({ j with failure := some e }, [], sink)
  | _, _ => (j, [], sink)

/-- How the work ended, if it has: with a verdict or in a crash. -/
def verdict? (j : Job) : Option (Option Verdict) :=
  match j.study with
  | .skipped => some (some (.ok .skipped))
  | .failed => some (some (.ok .failed))
  | .crashed => some none
  | .records _ =>
      match j.failure, j.rest with
      | some e, _ => some (some (.error e))
      | none, [] => some (some (.ok .processed))
      | none, _ :: _ => none

structure Sound (p : Processor) (j : Job) : Prop where
  study : j.study = p.study j.path
  -- The records are handed over in order, and none is dropped on the way.
  split : j.sent ++ j.rest = j.study.pending
  -- The refused record is still there.
  refused : j.failure ≠ none → j.rest ≠ []

theorem sound_ofPath (p : Processor) (path : String) : (ofPath p path).Sound p where
  study := rfl
  split := rfl
  refused := by simp [ofPath]

variable {p : Processor} {j : Job}

theorem Sound.call (h : j.Sound p) (sink : σ) : (j.call sink).1.Sound p := by
  unfold Job.call
  split
  · rename_i r rest hnone hrest
    split
    · rename_i sink' _
      refine ⟨h.study, ?_, fun hsome => absurd hnone hsome⟩
      rw [← h.split, hrest, List.append_assoc]
      rfl
    · exact ⟨h.study, h.split, fun _ => by simp [hrest]⟩
  · exact h

/-- What the output takes by a call is what the job counts as sent by it. -/
theorem sent_call (sink : σ) : (j.call sink).1.sent = j.sent ++ (j.call sink).2.1 := by
  unfold Job.call
  split
  · split <;> simp
  · simp

theorem Sound.sent_isPrefix (h : j.Sound p) : j.sent <+: j.study.pending :=
  ⟨j.rest, h.split⟩

/-- A job has sent all of its records exactly if it ended well. -/
theorem Sound.sent_eq_iff (h : j.Sound p) {rs : List Record} (hrs : j.study = .records rs) :
    j.sent = rs ↔ j.verdict? = some (some (.ok .processed)) := by
  have hsplit : j.sent ++ j.rest = rs := by rw [h.split, hrs]; rfl
  have hall : j.sent = rs ↔ j.rest = [] := by
    rw [← hsplit]
    simp
  rw [hall, verdict?, hrs]
  cases hfail : j.failure with
  | none => cases j.rest <;> simp
  | some e => simpa using h.refused (by simp [hfail])

/-- A job whose output failed has at least the refused record left. -/
theorem Sound.sent_ne (h : j.Sound p) {rs : List Record} (hrs : j.study = .records rs)
    {e : Failure} (herror : j.verdict? = some (some (.error e))) : j.sent ≠ rs := by
  intro hsent
  rw [(h.sent_eq_iff hrs).mp hsent] at herror
  simp at herror

theorem Sound.sent_eq_nil (h : j.Sound p) (hnone : j.study.pending = []) : j.sent = [] := by
  have hsplit := h.split
  rw [hnone] at hsplit
  exact (List.append_eq_nil_iff.mp hsplit).1

/-- Only a study without records ends in an outcome that is not `processed`. -/
theorem pending_eq_nil {o : Outcome} (hverdict : j.verdict? = some (some (.ok o)))
    (ho : o ≠ .processed) : j.study.pending = [] := by
  cases hstudy : j.study with
  | records rs =>
      rw [verdict?, hstudy] at hverdict
      cases hfail : j.failure <;> cases hrest : j.rest <;> simp_all
  | _ => rfl

/-! ### A job left alone -/

/-- Several calls in a row, with nobody else calling. -/
def calls : Nat → Job → σ → Job × σ
  | 0, j, sink => (j, sink)
  | n + 1, j, sink => calls n (j.call sink).1 (j.call sink).2.2

theorem calls_of_failure {e : Failure} (h : j.failure = some e) (n : Nat) (sink : σ) :
    calls n j sink = (j, sink) := by
  induction n with
  | zero => rfl
  | succ n ih => simp [calls, Job.call, h, ih]

theorem emitAll_cons (r : Record) (rs : List Record) (sink : σ) :
    (emitAll (r :: rs)).run sink =
      match (Emitter.emit r).run sink with
      | (.ok (), sink) => (emitAll rs).run sink
      | (.error e, sink) => (.error e, sink) := by
  have hbind : emitAll (σ := σ) (r :: rs) = (Emitter.emit r >>= fun _ => emitAll rs) := by
    simp [emitAll]
  rw [hbind, ExceptT.run_bind]
  simp only [bind, StateT.bind]
  rcases (Emitter.emit r).run sink with ⟨_ | _, _⟩ <;> rfl

/-- As many calls as there are records left come to the end of the job, and they do what emitting
all of the records does. -/
theorem calls_rest (j : Job) (h : j.failure = none) (sink : σ) :
    ∃ j', calls j.rest.length j sink = (j', ((emitAll j.rest).run sink).2) ∧
      j'.study = j.study ∧
      match ((emitAll j.rest).run sink).1 with
      | .ok () => j'.failure = none ∧ j'.rest = []
      | .error e => j'.failure = some e := by
  -- The induction is on the records that are left; the calls of the rest start from another sink.
  generalize hrest : j.rest = rs
  induction rs generalizing j sink with
  | nil => exact ⟨j, rfl, rfl, h, hrest⟩
  | cons r rs ih =>
      rw [emitAll_cons, List.length_cons, calls]
      have hcall : j.call sink = match (Emitter.emit r).run sink with
          | (.ok (), sink) => ({ j with sent := j.sent ++ [r], rest := rs }, [r], sink)
          | (.error e, sink) => ({ j with failure := some e }, [], sink) := by
        rw [Job.call, h, hrest]
      rw [hcall]
      rcases (Emitter.emit r).run sink with ⟨e | _, sink'⟩
      · exact ⟨_, calls_of_failure rfl _ _, rfl, rfl⟩
      · obtain ⟨j', hcalls, hstudy, hend⟩ :=
          ih { j with sent := j.sent ++ [r], rest := rs } h sink' rfl
        exact ⟨j', hcalls, hstudy, hend⟩

theorem process_run (p : Processor) (path : String) (sink : σ) :
    (p.process path).run sink =
      match p.study path with
      | .skipped => (some (.ok .skipped), sink)
      | .failed => (some (.ok .failed), sink)
      | .crashed => (none, sink)
      | .records rs =>
          match (emitAll rs).run sink with
          | (.ok (), sink) => (some (.ok .processed), sink)
          | (.error e, sink) => (some (.error e), sink) := by
  rw [Processor.process]
  cases p.study path with
  | records rs =>
      simp only [Processor.conclude, StateT.run, bind, StateT.bind]
      rcases (emitAll rs).run sink with ⟨_ | _, _⟩ <;> rfl
  | _ => rfl

/-- A job that nobody disturbs ends as `Processor.process` does, with the same output. -/
theorem calls_eq_process (p : Processor) (path : String) (sink : σ) :
    ∃ n j, calls n (ofPath p path) sink = (j, ((p.process path).run sink).2) ∧
      j.verdict? = some ((p.process path).run sink).1 := by
  rw [process_run]
  cases hstudy : p.study path with
  | records rs =>
      obtain ⟨j, hcalls, hsame, hend⟩ := calls_rest (ofPath p path) rfl sink
      have hrest : (ofPath p path).rest = rs := by simp [ofPath, hstudy, Study.pending]
      have hrecords : j.study = .records rs := by rw [hsame, ← hstudy]; rfl
      rw [hrest] at hcalls hend
      refine ⟨rs.length, j, ?_⟩
      rw [hcalls]
      dsimp only
      -- The two ends of the emission: all records were taken, or one was refused.
      generalize (emitAll rs).run sink = out at hend
      obtain ⟨e | _, _⟩ := out
      · have hrefused : j.failure = some e := hend
        exact ⟨rfl, by simp only [verdict?, hrecords, hrefused]⟩
      · obtain ⟨htaken, hempty⟩ : j.failure = none ∧ j.rest = [] := hend
        exact ⟨rfl, by simp only [verdict?, hrecords, htaken, hempty]⟩
  | _ => exact ⟨0, ofPath p path, rfl, by simp [verdict?, ofPath, hstudy]⟩

end Job

end CodeGraph
