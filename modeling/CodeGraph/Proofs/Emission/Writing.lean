import CodeGraph.Proofs.Emission.Jobs

/-!
Writing over sinks that take everything. What a writer was given is at its sink or held back, in
order, so each effect is described by the bytes that it adds, whatever the buffer held before and
wherever a block had to be passed on. Closing a writer leaves nothing behind.
-/

namespace CodeGraph

namespace Writer

/-- The sink takes what it is given. -/
def Open (w : Writer) : Prop :=
  w.sink.refuses = none

/-- All that was written: what the sink has and what is held back. -/
def output (w : Writer) : List UInt8 :=
  w.sink.written.toList ++ w.pending.toList

/-- The effect succeeds and adds the bytes to what was written. -/
def Writes {ε : Type} (act : ExceptT ε (StateM Writer) Unit) (bytes : List UInt8) : Prop :=
  ∀ w : Writer, w.Open → ∃ w', act.run.run w = (.ok (), w') ∧ w'.Open ∧
    w'.output = w.output ++ bytes

theorem writes_pure {ε : Type} : Writes (pure () : ExceptT ε (StateM Writer) Unit) [] :=
  fun w hw => ⟨w, rfl, hw, (List.append_nil _).symm⟩

theorem Writes.bind {ε : Type} {act act' : ExceptT ε (StateM Writer) Unit}
    {bytes bytes' : List UInt8} (h : Writes act bytes) (h' : Writes act' bytes') :
    Writes (act >>= fun _ => act') (bytes ++ bytes') := by
  intro w hw
  obtain ⟨w₁, hrun, hopen, houtput⟩ := h w hw
  obtain ⟨w₂, hrun', hopen', houtput'⟩ := h' w₁ hopen
  refine ⟨w₂, ?_, hopen', ?_⟩
  · rw [ExceptT.run_bind, StateT.run_bind, hrun]
    exact hrun'
  · rw [houtput', houtput, List.append_assoc]

theorem writes_forM {ε α : Type} {act : α → ExceptT ε (StateM Writer) Unit}
    {bytes : α → List UInt8} (h : ∀ x, Writes (act x) (bytes x)) (xs : List α) :
    Writes (xs.forM act) (xs.flatMap bytes) := by
  induction xs with
  | nil => exact writes_pure
  | cons x xs ih =>
      rw [List.flatMap_cons]
      exact (h x).bind ih

/-! ### One piece -/

variable {w : Writer}

theorem run_deliver (hw : w.Open) (bytes : Array UInt8) :
    (deliver bytes).run.run w =
      (.ok (), { w with sink := { w.sink with written := w.sink.written ++ bytes } }) := by
  obtain ⟨⟨refuses, written⟩, pending⟩ := w
  obtain rfl : refuses = none := hw
  rfl

/-- Nothing is held back after draining. -/
theorem run_drain (hw : w.Open) :
    drain.run.run w =
      (.ok (), { sink := { w.sink with written := w.sink.written ++ w.pending } }) := by
  have hrun : drain.run.run w = (if !w.pending.isEmpty then
      deliver w.pending >>= fun _ => modify fun w => { w with pending := #[] }
      else pure ()).run.run w := rfl
  rw [hrun]
  split
  · rw [ExceptT.run_bind, StateT.run_bind, run_deliver hw]
    rfl
  case isFalse hpending =>
    have hempty : w.pending = #[] := by simpa using hpending
    obtain ⟨sink, pending⟩ := w
    obtain rfl : pending = #[] := hempty
    rfl

theorem writes_hold (bytes : List UInt8) : Writes (hold bytes) bytes := by
  intro w hw
  refine ⟨{ w with pending := w.pending ++ bytes }, rfl, hw, ?_⟩
  simp [output]

/-- Bytes that go straight to the sink are in order if nothing is held back. -/
theorem run_deliver_of_isEmpty (hw : w.Open) (hpending : w.pending = #[]) (bytes : List UInt8) :
    ∃ w', (deliver bytes.toArray).run.run w = (.ok (), w') ∧ w'.Open ∧
      w'.output = w.output ++ bytes := by
  refine ⟨_, run_deliver hw bytes.toArray, hw, ?_⟩
  simp [output, hpending]

/-- A piece that goes straight to the sink is as large as the buffer, so that whatever was held
back before it has been given away. -/
theorem writes_put (bytes : List UInt8) : Writes (put bytes) bytes := by
  intro w hw
  have hrun : (put bytes).run.run w =
      (if w.spare < bytes.length then
        drain >>= fun _ => if capacity ≤ bytes.length then deliver bytes.toArray else hold bytes
      else if capacity ≤ bytes.length then deliver bytes.toArray else hold bytes).run.run w := rfl
  rw [hrun]
  split
  case isTrue hspare =>
    rw [ExceptT.run_bind, StateT.run_bind, run_drain hw]
    set w₁ : Writer := { sink := { w.sink with written := w.sink.written ++ w.pending } } with hw₁
    have houtput : w₁.output = w.output := by simp [output, hw₁]
    rw [← houtput]
    by_cases hlarge : capacity ≤ bytes.length
    · simp only [if_pos hlarge]
      exact run_deliver_of_isEmpty (w := w₁) hw rfl bytes
    · simp only [if_neg hlarge]
      exact writes_hold bytes w₁ hw
  case isFalse hspare =>
    split
    case isTrue hlarge =>
      have hsize : w.pending.size = 0 := by
        rw [spare] at hspare
        have : 0 < capacity := by decide
        omega
      exact run_deliver_of_isEmpty hw (Array.eq_empty_of_size_eq_zero hsize) bytes
    case isFalse => exact writes_hold bytes w hw

theorem writes_putTexts (texts : List (List Char)) :
    Writes (texts.forM putText) (Utf8.encode texts.flatten) := by
  have hbytes : Utf8.encode texts.flatten = texts.flatMap Utf8.encode := by
    simp only [Utf8.encode, List.flatMap_def, List.map_flatten, List.flatten_flatten, List.map_map]
    rfl
  rw [hbytes]
  exact writes_forM (fun text => writes_put (Utf8.encode text)) texts

/-! ### Records -/

theorem Writes.reporting {act : Writing Unit} {bytes : List UInt8} (h : Writes act bytes)
    (fail : String → Failure) : Writes (reporting fail act) bytes := by
  intro w hw
  obtain ⟨w', hrun, hopen, houtput⟩ := h w hw
  refine ⟨w', ?_, hopen, houtput⟩
  have hact : act w = (.ok (), w') := hrun
  show Writer.reporting fail act w = _
  rw [Writer.reporting, hact]

theorem writes_emit (r : Record) : Writes (emit r) (Utf8.encode r.line) := by
  have hline : Utf8.encode r.line = Utf8.encode r.json.pieces.flatten ++ Utf8.encode ['\n'] := by
    rw [Json.flatten_pieces, Record.line, Utf8.encode, List.flatMap_append]
    rfl
  rw [hline]
  have hjson := writes_putTexts r.json.pieces
  have hend := writes_put (Utf8.encode ['\n'])
  exact (hjson.reporting _).bind (hend.reporting _)

theorem writes_emitAll (rs : List Record) :
    Writes (emitAll rs) (rs.flatMap fun r => Utf8.encode r.line) :=
  writes_forM writes_emit rs

theorem run_close (hw : w.Open) :
    close.run.run w =
      (.ok (), { sink := { w.sink with written := w.sink.written ++ w.pending } }) := by
  have hdrain : drain w = (.ok (), _) := run_drain hw
  show reporting _ drain w = _
  rw [reporting, hdrain]

/-- After closing, the sink has all that was written. -/
theorem Writes.close {act : Emission Writer Unit} {bytes : List UInt8} (h : Writes act bytes)
    (hw : w.Open) :
    ∃ w', (act >>= fun _ => Writer.close).run.run w = (.ok (), w') ∧ w'.pending = #[] ∧
      w'.sink.written.toList = w.output ++ bytes := by
  obtain ⟨w₁, hrun, hopen, houtput⟩ := h w hw
  refine ⟨{ sink := { w₁.sink with written := w₁.sink.written ++ w₁.pending } }, ?_, rfl, ?_⟩
  · rw [ExceptT.run_bind, StateT.run_bind, hrun]
    exact run_close hopen
  · rw [← houtput, output, Array.toList_append]

end Writer

/-! ### Two streams -/

namespace Record

def isNode : Record → Bool
  | node _ => true
  | edge _ => false

end Record

theorem run_emitAll_cons {σ : Type} [Emitter σ] {r : Record} {s s' : σ}
    (h : (Emitter.emit r).run.run s = (.ok (), s')) (rs : List Record) :
    (emitAll (r :: rs)).run.run s = (emitAll rs).run.run s' := by
  have hemit : (Emitter.emit r).run s = (.ok (), s') := h
  show (emitAll (r :: rs)).run s = _
  rw [Job.emitAll_cons, hemit]
  rfl

namespace SplitWriter

variable {s : SplitWriter} {act : Emission Writer Unit} {w : Writer}

theorem run_onNodes (h : act.run.run s.nodes = (.ok (), w)) :
    (onNodes act).run.run s = (.ok (), { s with nodes := w }) := by
  have hact : act s.nodes = (.ok (), w) := h
  show onNodes act s = _
  rw [onNodes, hact]

theorem run_onEdges (h : act.run.run s.edges = (.ok (), w)) :
    (onEdges act).run.run s = (.ok (), { s with edges := w }) := by
  have hact : act s.edges = (.ok (), w) := h
  show onEdges act s = _
  rw [onEdges, hact]

/-- Each stream gets what a writer of its own gets from the records of its kind. -/
theorem run_emitAll (rs : List Record) (hnodes : s.nodes.Open) (hedges : s.edges.Open) :
    ∃ s', (emitAll rs).run.run s = (.ok (), s') ∧
      (emitAll (rs.filter Record.isNode)).run.run s.nodes = (.ok (), s'.nodes) ∧
      (emitAll (rs.filter fun r => !r.isNode)).run.run s.edges = (.ok (), s'.edges) := by
  induction rs generalizing s with
  | nil => exact ⟨s, rfl, rfl, rfl⟩
  | cons r rs ih =>
      cases r with
      | node n =>
          obtain ⟨w, hemit, hopen, -⟩ := Writer.writes_emit (.node n) s.nodes hnodes
          obtain ⟨s', hrun, hn, he⟩ := ih (s := { s with nodes := w }) hopen hedges
          refine ⟨s', ?_, ?_, he⟩
          · exact (run_emitAll_cons (run_onNodes hemit) rs).trans hrun
          · exact (run_emitAll_cons hemit _).trans hn
      | edge e =>
          obtain ⟨w, hemit, hopen, -⟩ := Writer.writes_emit (.edge e) s.edges hedges
          obtain ⟨s', hrun, hn, he⟩ := ih (s := { s with edges := w }) hnodes hopen
          refine ⟨s', ?_, hn, ?_⟩
          · exact (run_emitAll_cons (run_onEdges hemit) rs).trans hrun
          · exact (run_emitAll_cons hemit _).trans he

/-- After closing, each sink has the lines of the records of its kind. -/
theorem run_emitAll_close (rs : List Record) (hnodes : s.nodes.Open) (hedges : s.edges.Open) :
    ∃ s', (emitAll rs >>= fun _ => close).run.run s = (.ok (), s') ∧
      s'.nodes.pending = #[] ∧ s'.edges.pending = #[] ∧
      s'.nodes.sink.written.toList =
        s.nodes.output ++ (rs.filter Record.isNode).flatMap (fun r => Utf8.encode r.line) ∧
      s'.edges.sink.written.toList =
        s.edges.output ++ (rs.filter fun r => !r.isNode).flatMap (fun r => Utf8.encode r.line) := by
  obtain ⟨s₁, hrun, hn, he⟩ := run_emitAll rs hnodes hedges
  obtain ⟨wn, hwn, hpn, hon⟩ := (Writer.writes_emitAll (rs.filter Record.isNode)).close hnodes
  obtain ⟨we, hwe, hpe, hoe⟩ := (Writer.writes_emitAll (rs.filter fun r => !r.isNode)).close hedges
  rw [ExceptT.run_bind, StateT.run_bind, hn] at hwn
  rw [ExceptT.run_bind, StateT.run_bind, he] at hwe
  refine ⟨⟨wn, we⟩, ?_, hpn, hpe, hon, hoe⟩
  rw [ExceptT.run_bind, StateT.run_bind, hrun]
  show (onNodes Writer.close >>= fun _ => onEdges Writer.close).run.run s₁ = _
  rw [ExceptT.run_bind, StateT.run_bind, run_onNodes hwn]
  exact run_onEdges (s := { s₁ with nodes := wn }) hwe

end SplitWriter

end CodeGraph
