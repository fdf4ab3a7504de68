import CodeGraph.Proofs.Files.Places
import CodeGraph.Proofs.Pool.Sequential

/-!
The walk of a directory. If nobody stops it, it submits the files below the directory that no
excluded directory holds, each of them once and in the order of a walk, however the workers are
scheduled. It can only fail because every worker crashed, and then it has submitted a beginning.
-/

namespace CodeGraph.Feeder

/-! ### Walks that nobody stops -/

section

variable {o : PoolOptions} {paths : List String} {es : List Event} {w : Feeder} {path : String}

theorem Run.submissions_prefix_paths (run : Run (start o paths) es w) :
    submissions es <+: paths := by
  have acc := run.accounts
  rw [← acc.sequence, acc.pulled, List.append_assoc]
  exact List.prefix_append _ _

/-- To stop a walk, the token has to be raised. -/
theorem Run.raised_of_cancelled (run : Run (start o paths) es w)
    (h : w.stage = .stopping (.cancelled path)) : .raised ∈ es := by
  have hlooked := run.accounts.looked
  rw [h] at hlooked
  have hseen : true ∈ looks es := by simp [hlooked, Stage.seen]
  obtain ⟨e, he, hsome⟩ := List.mem_filterMap.mp hseen
  obtain rfl : e = .looked true := by
    cases e <;> simp_all
  obtain ⟨before, after, rfl⟩ := List.append_of_mem he
  exact List.mem_append_left _ ((run.seen_iff_raised rfl).mp rfl)

/-- A path is refused only after every worker crashed. -/
theorem Run.crashes_of_refused (run : Run (start o paths) es w)
    (h : w.stage = .stopping (.refused path)) :
    max o.workers 1 ≤ (Pool.crashes (poolEvents es)).length := by
  induction run with
  | refl => simp [start] at h
  | @step es v u e run hstep ih =>
      -- A crash is never undone, so only the step matters that refuses the path.
      have hmono : (Pool.crashes (poolEvents es)).length ≤
          (Pool.crashes (poolEvents (es ++ [e]))).length := by
        rw [poolEvents_append, Pool.crashes, Pool.crashes, List.filterMap_append,
          List.length_append]
        omega
      cases hstep with
      | refuse hstage hdeserted =>
          have acc := run.accounts
          have hall := acc.pool.accounts.crashes_of_isOpen hdeserted
            (acc.isOpen (by simp [hstage]))
          exact hall.ge.trans hmono
      | raise => exact (ih h).trans hmono
      | close hstage _ => exact (ih h).trans hmono
      | work _ _ => exact (ih h).trans hmono
      | look hstage => split at h <;> simp at h
      | _ => simp at h

/-- A walk that nobody stops submits every path, unless it fails. -/
theorem Run.result_of_lowered (run : Run (start o paths) es w) (lowered : .raised ∉ es)
    {result : Except Failure WalkStats} (h : w.result? = some result) :
    (submissions es = paths ∧ ∃ stats, result = .ok stats ∧ stats.cancelled = false ∧
      stats.pool.submitted = paths.length) ∨
    (result = .error (Failure.other "all workers have exited") ∧
      max o.workers 1 ≤ (Pool.crashes (poolEvents es)).length) := by
  have acc := run.accounts
  obtain ⟨ending, hstage, hstopped, rfl⟩ := result?_eq_some_iff.mp h
  cases ending with
  | exhausted =>
      have hfits := acc.fits
      have hpulled := acc.pulled
      have hsequence := acc.sequence
      rw [Fits, hstage] at hfits
      rw [hstage, Stage.held, List.append_nil] at hpulled
      rw [hpulled, hfits, List.append_nil] at hsequence
      refine .inl ⟨hsequence, _, rfl, rfl, ?_⟩
      rw [← hsequence]
      exact acc.pool.accounts.submitted
  | cancelled path => exact absurd (run.raised_of_cancelled hstage) lowered
  | refused path => exact .inr ⟨rfl, run.crashes_of_refused hstage⟩

end

/-! ### Walks of a directory -/

/-- A walk that starts at a directory, or at a file, in which names are proper. Its paths are those
of the files with no excluded directory on the way; neither the name of the file itself matters nor
that of the directory where the walk starts. They come depth first and in the order of the names,
no path comes twice, and each leads to its file. A walk that nobody stops submits all of them,
whatever the schedule: it can only fail because every worker crashed, and then it has submitted the
first ones. The sequential walk is one of these runs, and it does not fail if no file crashes. -/
theorem directory_walk_submits_files {root e : Entry} {dir : String} {place : Place}
    (htree : e.IsTree) (hdir : root.locate dir = .ok place) (hat : root.at? place = some e)
    (exclude : List String) :
    (∃ files : List Place, root.walk exclude dir = files.map (Path.below dir) ∧
      (∀ p, p ∈ files ↔ (∃ content, e.at? p = some (.file content)) ∧
        ∀ name ∈ p.dropLast, name ∉ exclude) ∧
      files.Pairwise Entry.Precedes ∧
      ∀ p ∈ files, root.locate (Path.below dir p) = .ok (place ++ p)) ∧
    (root.walk exclude dir).Nodup ∧
    (∀ o es w, Run (start o (root.walk exclude dir)) es w → .raised ∉ es →
      submissions es <+: root.walk exclude dir ∧
      ∀ result, w.result? = some result →
        (submissions es = root.walk exclude dir ∧ ∃ stats, result = .ok stats ∧
          stats.cancelled = false ∧ stats.pool.submitted = (root.walk exclude dir).length) ∨
        (result = .error (Failure.other "all workers have exited") ∧
          max o.workers 1 ≤ (Pool.crashes (poolEvents es)).length)) ∧
    (∀ {σ : Type} [Emitter σ] (o : PoolOptions) (p : Processor) (s : σ) result,
      ((Walk.runDirectory o p exclude root none dir).run s).1 = result →
      ∃ es w, Run (start o (root.walk exclude dir)) es w ∧ .raised ∉ es ∧
        w.result? = some result ∧
        ((∀ path ∈ root.walk exclude dir,
            { p with keepFound := o.keepFound }.study path ≠ .crashed) →
          submissions es = root.walk exclude dir ∧ ∃ stats, result = .ok stats)) := by
  refine ⟨⟨e.places exclude, Entry.walk_eq_map_places hdir hat exclude,
    fun p => Entry.mem_places htree, Entry.pairwise_places htree exclude, fun p hp => ?_⟩,
    Entry.nodup_walk htree hdir hat exclude, fun o es w run lowered => ?_, ?_⟩
  · obtain ⟨⟨content, hcontent⟩, -⟩ := (Entry.mem_places htree).mp hp
    exact Entry.locate_below htree hdir hat hcontent
  · exact ⟨run.submissions_prefix_paths, fun result => run.result_of_lowered lowered⟩
  · intro σ _ o p s result hrun
    obtain ⟨es, w, run, hresult, hfollows⟩ := exists_run_of_sequential o p none _ s hrun
    have lowered : .raised ∉ es := fun hraised => by simpa using hfollows.raised hraised
    refine ⟨es, w, run, lowered, hresult, fun returns => ?_⟩
    have calm : IsCalm es := isCalm_iff.mpr fun i path hcrash =>
      returns path (hfollows.crashed i path hcrash).1 (hfollows.crashed i path hcrash).2
    rcases run.result_of_lowered lowered hresult with ⟨hall, stats, hok, -⟩ | ⟨-, hcrashes⟩
    · exact ⟨hall, stats, hok⟩
    · rw [calm, List.length_nil] at hcrashes
      omega

/-- A directory that holds a file and a directory of excluded names and a socket. -/
def objectDirectory : Entry :=
  .directory [("obj", .file {}), ("b.ts", .file {}), ("bin", .directory [("d.ts", .file {})]),
    ("a", .directory [("socket", .other), ("c.ts", .file {})])]

/-- Though the names `bin` and `obj` are excluded, the walk goes through the directory `obj` and
submits the file `obj` in it; what `bin` holds is left out. -/
theorem excluded_start_and_file_are_walked :
    (Entry.directory [("obj", objectDirectory)]).walk ["bin", "obj"] "obj" =
      ["obj/a/c.ts", "obj/b.ts", "obj/obj"] ∧
    ∃ es w, Run (start {} ["obj/a/c.ts", "obj/b.ts", "obj/obj"]) es w ∧ .raised ∉ es ∧
      (∃ stats, w.result? = some (.ok stats)) ∧
      submissions es = ["obj/a/c.ts", "obj/b.ts", "obj/obj"] := by
  have hdir : (Entry.directory [("obj", objectDirectory)]).locate "obj" = .ok ["obj"] := rfl
  have hat : (Entry.directory [("obj", objectDirectory)]).at? ["obj"] = some objectDirectory := rfl
  have hwalk : (Entry.directory [("obj", objectDirectory)]).walk ["bin", "obj"] "obj" =
      ["obj/a/c.ts", "obj/b.ts", "obj/obj"] := by
    rw [Entry.walk_eq_map_places hdir hat]
    simp +decide [objectDirectory, Entry.places, Entry.placesIn, List.mergeSort,
      List.MergeSort.Internal.splitInTwo]
  have htree : objectDirectory.IsTree := by simp +decide [objectDirectory]
  -- The files are gone by the time they are read.
  let p : Processor := ⟨.default, Embedding.zero 1, false, fun _ => .error .notFound⟩
  obtain ⟨es, w, run, lowered, hresult, hall⟩ :=
    (directory_walk_submits_files htree hdir hat ["bin", "obj"]).2.2.2 {} p ({} : Writer) _ rfl
  obtain ⟨hsubmissions, stats, hok⟩ := hall fun path _ => by
    rw [Processor.study]
    split <;> simp [p]
  rw [hwalk] at run hsubmissions
  rw [hok] at hresult
  exact ⟨hwalk, es, w, run, lowered, ⟨stats, hresult⟩, hsubmissions⟩

end CodeGraph.Feeder
