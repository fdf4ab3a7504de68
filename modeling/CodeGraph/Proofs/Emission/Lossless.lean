import CodeGraph.Proofs.Emission.Tidiness
import CodeGraph.Proofs.Emission.Writing
import CodeGraph.Proofs.Text.Encoding
import CodeGraph.Proofs.Text.JsonText

/-!
Nothing is lost on the way out. The line of a record holds the record: a node is its line without
the ID and the label, which no property can be taken for, and an edge is the three fields of its
line. Lines are told apart by their line feeds, since a record has none of its own, and nodes from
edges by the ID. So what was emitted can be read back from what was written, in order.
-/

namespace CodeGraph

/-! ### Reading a record back -/

namespace Json

def field? (key : String) : Json → Option Json
  | object fields => Properties.get? key fields
  | _ => none

def text? (key : String) (v : Json) : Option String :=
  (v.field? key).bind string?

end Json

/-- Takes the ID and the label out of an object and keeps the other fields as properties. -/
def Node.ofJson? : Json → Option Node
  | .object fields =>
      match Json.text? "id" (.object fields), Json.text? "type" (.object fields) with
      | some id, some label => some ⟨id, label, (Properties.erase "type" fields).erase "id"⟩
      | _, _ => none
  | _ => none

def Edge.ofJson? (v : Json) : Option Edge :=
  match v.text? "source", v.text? "target", v.text? "type" with
  | some source, some target, some relation => some ⟨source, target, relation⟩
  | _, _, _ => none

namespace Record

/-- An object with an ID is a node, any other an edge. -/
def ofJson? (v : Json) : Option Record :=
  if (v.field? "id").isSome then (Node.ofJson? v).map node else (Edge.ofJson? v).map edge

/-- The bytes of the line of a record, without the line feed. -/
def bytes (r : Record) : List UInt8 :=
  Utf8.encode r.json.chars

def decode? (read : List Char → Option Json) (line : List UInt8) : Option Record :=
  ((Utf8.strict? line).bind read).bind ofJson?

/-- A processor with the default analyzers emits the record for some file. -/
def Emitted (r : Record) : Prop :=
  ∃ p : Processor, p.registry = Registry.default ∧
    ∃ path rs, p.study path = .records rs ∧ r ∈ rs

end Record

/-! ### Single records -/

theorem Node.ofJson?_json {n : Node} (h : n.Tidy) : ofJson? n.json = some n := by
  have hid : Properties.get? "id" n.properties = none := h.get?_eq_none (by decide)
  have htype : Properties.get? "type" n.properties = none := h.get?_eq_none (by decide)
  have hfree : (n.properties.set "id" (.str n.id)).get? "type" = none := by
    rw [Properties.get?_set, if_neg (by decide), htype]
  have hproperties : (((n.properties.set "id" (.str n.id)).set "type" (.str n.label)).erase
      "type").erase "id" = n.properties := by
    rw [Properties.erase_set, Properties.erase_eq_self hfree, Properties.erase_set,
      Properties.erase_eq_self hid]
  simp only [ofJson?, json, Json.text?, Json.field?, Properties.get?_set]
  simp [Json.string?, hproperties]

theorem Edge.ofJson?_json (e : Edge) : ofJson? e.json = some e := rfl

namespace Record

theorem isSome_field?_id (r : Record) : (r.json.field? "id").isSome = r.isNode := by
  cases r with
  | node n =>
      simp only [json, Node.json, Json.field?, Properties.get?_set]
      simp [isNode]
  | edge e => rfl

theorem ofJson?_json {r : Record} (h : ∀ n, r = .node n → n.Tidy) : ofJson? r.json = some r := by
  rw [ofJson?, isSome_field?_id]
  cases r with
  | node n =>
      rw [isNode, if_pos rfl, json, Node.ofJson?_json (h n rfl)]
      rfl
  | edge e => rfl

theorem canonical_json {r : Record} (h : ∀ n, r = .node n → n.Tidy) : r.json.Canonical := by
  cases r with
  | node n =>
      obtain ⟨hsorted, -, hcanonical⟩ := h n rfl
      refine .object ((hsorted.set _ _).set _ _) fun entry hentry => ?_
      rcases Properties.mem_set hentry with rfl | hentry
      · exact .str _
      · rcases Properties.mem_set hentry with rfl | hentry
        · exact .str _
        · exact hcanonical entry hentry
  | edge e =>
      have hkeys : ["source", "target", "type"].Pairwise (· < ·) := by decide
      refine .object (List.pairwise_map.mp hkeys) fun entry hentry => ?_
      simp only [List.mem_cons, List.not_mem_nil, or_false] at hentry
      rcases hentry with rfl | rfl | rfl <;> exact .str _

theorem Emitted.tidy {r : Record} (h : r.Emitted) : ∀ n, r = .node n → n.Tidy := by
  obtain ⟨p, hp, path, rs, hstudy, hr⟩ := h
  rintro n rfl
  exact Processor.tidy_of_study hp hstudy hr

/-! ### Lines -/

theorem lf_not_mem_bytes (r : Record) : Mask.lf ∉ r.bytes := by
  intro h
  exact (Json.printable_chars r.json).newline_not_mem (Utf8.newline_mem_of_lf_mem_encode h)

theorem encode_line (r : Record) : Utf8.encode r.line = r.bytes ++ [Mask.lf] := by
  rw [line, Utf8.encode, List.flatMap_append]
  rfl

/-- Cutting lines at their line feeds gives one piece for each record, and an empty one behind the
last line feed. -/
theorem splitOn_lines (rs : List Record) :
    Seq.splitOn (· == Mask.lf) (rs.flatMap fun r => Utf8.encode r.line) = rs.map bytes ++ [[]] := by
  induction rs with
  | nil => rfl
  | cons r rs ih =>
      have hplain : ∀ b ∈ r.bytes, (b == Mask.lf) = false := by
        intro b hb
        rw [beq_eq_false_iff_ne]
        exact fun heq => r.lf_not_mem_bytes (heq ▸ hb)
      rw [List.flatMap_cons, encode_line, List.append_assoc, List.singleton_append,
        @Seq.splitOn_append_cons _ (· == Mask.lf) _ (beq_self_eq_true _), ih,
        Seq.splitOn_eq_singleton hplain]
      rfl

theorem decode?_bytes {read : List Char → Option Json} {r : Record}
    (htidy : ∀ n, r = .node n → n.Tidy) (hread : read r.json.chars = some r.json) :
    decode? read r.bytes = some r := by
  rw [decode?, bytes, Utf8.strict?_encode, Option.bind_some, hread, Option.bind_some,
    ofJson?_json htidy]

end Record

/-! ### Whole outputs -/

/-- Emitted nodes have no property that their line needs for itself, and each record is found in
its line. Written over sinks that take everything, records become lines in order, on one stream or
on one for each kind, and a reader that can tell canonical values from their text gives the
records back. -/
theorem emission_lossless (rs : List Record) (hrs : ∀ r ∈ rs, r.Emitted) :
    (∀ n, .node n ∈ rs →
      (∀ key ∈ Key.reserved, n.get? key = none) ∧ Node.ofJson? n.json = some n) ∧
    (∀ e, .edge e ∈ rs → Edge.ofJson? e.json = some e) ∧
    (∀ r ∈ rs, (r.json.field? "id").isSome = r.isNode) ∧
    (∃ w, (emitAll rs >>= fun _ => Emitter.close).run.run ({} : Writer) = (.ok (), w) ∧
      w.pending = #[] ∧
      Seq.splitOn (· == Mask.lf) w.sink.written.toList = rs.map Record.bytes ++ [[]]) ∧
    (∃ s, (emitAll rs >>= fun _ => Emitter.close).run.run ({} : SplitWriter) = (.ok (), s) ∧
      s.nodes.pending = #[] ∧ s.edges.pending = #[] ∧
      Seq.splitOn (· == Mask.lf) s.nodes.sink.written.toList =
        (rs.filter Record.isNode).map Record.bytes ++ [[]] ∧
      Seq.splitOn (· == Mask.lf) s.edges.sink.written.toList =
        (rs.filter fun r => !r.isNode).map Record.bytes ++ [[]]) ∧
    ∀ read : List Char → Option Json,
      (∀ r ∈ rs, r.json.Canonical → read r.json.chars = some r.json) →
        (rs.map Record.bytes).map (Record.decode? read) = rs.map some := by
  have htidy : ∀ r ∈ rs, ∀ n, r = .node n → n.Tidy := fun r hr => (hrs r hr).tidy
  refine ⟨fun n hn => ?_, fun e _ => Edge.ofJson?_json e, fun r _ => r.isSome_field?_id, ?_, ?_, ?_⟩
  · have hn := htidy _ hn n rfl
    exact ⟨fun key hkey => hn.get?_eq_none hkey, Node.ofJson?_json hn⟩
  · obtain ⟨w, hrun, hpending, hwritten⟩ := (Writer.writes_emitAll rs).close (w := {}) rfl
    refine ⟨w, hrun, hpending, ?_⟩
    rw [hwritten]
    exact Record.splitOn_lines rs
  · obtain ⟨s, hrun, hnodes, hedges, hwritten, hwritten'⟩ :=
      SplitWriter.run_emitAll_close (s := {}) rs rfl rfl
    refine ⟨s, hrun, hnodes, hedges, ?_, ?_⟩
    · rw [hwritten]
      exact Record.splitOn_lines _
    · rw [hwritten']
      exact Record.splitOn_lines _
  · intro read hread
    rw [List.map_map]
    refine List.map_congr_left fun r hr => ?_
    exact Record.decode?_bytes (htidy r hr) (hread r hr (Record.canonical_json (htidy r hr)))

/-- Looking texts up among those of the records reads them if no two of the texts are the same. -/
theorem Record.lookup_json_chars {rs : List Record} (h : (rs.map fun r => r.json.chars).Nodup)
    {r : Record} (hr : r ∈ rs) :
    (rs.map fun r => (r.json.chars, r.json)).lookup r.json.chars = some r.json := by
  induction rs with
  | nil => cases hr
  | cons first rest ih =>
      obtain ⟨hfirst, hrest⟩ := List.nodup_cons.mp h
      rw [List.map_cons, List.lookup_cons]
      rcases List.mem_cons.mp hr with rfl | hr
      · rw [beq_self_eq_true]
      · have hne : r.json.chars ≠ first.json.chars :=
          fun heq => hfirst (List.mem_map.mpr ⟨r, hr, heq⟩)
        rw [beq_false_of_ne hne]
        exact ih hrest hr

/-- A Visual Basic file with a routine whose embedding has an infinite coordinate. -/
theorem routine_emission_lossless :
    ∃ (p : Processor) (rs : List Record) (read : List Char → Option Json),
      p.registry = Registry.default ∧ p.study "a.vb" = .records rs ∧
        rs.map Record.isNode = [true, false, true] ∧
        (∀ r ∈ rs, r.json.Canonical → read r.json.chars = some r.json) ∧
        (rs.map Record.bytes).map (Record.decode? read) = rs.map some := by
  let source : SourceFile := ⟨"a.vb", Utf8.encode "Sub A()\nEnd Sub".toList⟩
  let v : Embedding := [Binary64.zero, ⟨0x7ff0000000000000⟩]
  let p : Processor :=
    { registry := Registry.default
      embedder := fun _ => .ok [v]
      read := fun _ => .ok { bytes := source.bytes } }
  let rs := Processor.records p.embedder "a.vb" "vbnet" (Vb.analyze source)
  have hstudy : p.study "a.vb" = .records rs :=
    Processor.study_eq_records_iff.mpr
      ⟨"vbnet", Vb.analyze source, ⟨Analyzer.ofLanguage .vbnet, _, rfl, rfl, rfl, .inl rfl⟩, rfl⟩
  have hrs : rs.map Record.isNode = [true, false, true] ∧
      (rs.map fun r => r.json.chars).Nodup := by
    decide +kernel
  have hemitted : ∀ r ∈ rs, r.Emitted := fun r hr => ⟨p, rfl, "a.vb", rs, hstudy, hr⟩
  obtain ⟨-, -, -, -, -, hdecode⟩ := emission_lossless rs hemitted
  let read (text : List Char) := (rs.map fun r => (r.json.chars, r.json)).lookup text
  have hread : ∀ r ∈ rs, r.json.Canonical → read r.json.chars = some r.json :=
    fun r hr _ => Record.lookup_json_chars hrs.2 hr
  exact ⟨p, rs, read, rfl, hstudy, hrs.1, hread, hdecode read hread⟩

end CodeGraph
