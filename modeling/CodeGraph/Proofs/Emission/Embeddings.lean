import CodeGraph.Proofs.Emission.Jobs
import CodeGraph.Proofs.Graph.Properties

/-!
What an embedder can change in the records of a file: nothing but the embeddings. They go to the
functions and methods with a name, in order, if the embedder answers with as many vectors as there
are such nodes, and to no node otherwise. All other properties, the edges, the order of the
records and the outcome of the file are the same under every embedder.
-/

namespace CodeGraph

/-! ### The nodes that get an embedding -/

/-- A function or method whose name is a text. -/
def Node.isNamedRoutine (n : Node) : Bool :=
  Label.isCallable n.label && n.name?.isSome

namespace Fragment

def namedRoutines (f : Fragment) : List Node :=
  f.nodes.filter Node.isNamedRoutine

def routineNames (f : Fragment) : List String :=
  f.namedRoutines.filterMap Node.name?

end Fragment

namespace Processor

theorem isSome_embeddedText? (n : Node) : (embeddedText? n).isSome = n.isNamedRoutine := by
  unfold embeddedText? Node.isNamedRoutine
  split
  case isTrue h => simp [h]
  case isFalse h => simp [h]

theorem filterMap_embeddedText? (nodes : List Node) :
    nodes.filterMap embeddedText? = (nodes.filter Node.isNamedRoutine).filterMap Node.name? := by
  induction nodes with
  | nil => rfl
  | cons n nodes ih =>
      rw [List.filterMap_cons, ih, List.filter_cons]
      by_cases hcallable : Label.isCallable n.label
      · cases hname : n.name? <;> simp [embeddedText?, Node.isNamedRoutine, hcallable, hname]
      · simp [embeddedText?, Node.isNamedRoutine, hcallable]

theorem length_filterMap_embeddedText? (nodes : List Node) :
    (nodes.filterMap embeddedText?).length = (nodes.filter Node.isNamedRoutine).length := by
  rw [List.length_filterMap_eq_countP, ← List.countP_eq_length_filter]
  simp only [isSome_embeddedText?]

theorem isNamedRoutine_set_embedding (n : Node) (value : Json) :
    (n.set Key.embedding value).isNamedRoutine = n.isNamedRoutine := by
  unfold Node.isNamedRoutine
  rw [Node.name?_set_of_ne (by decide)]
  rfl

theorem isNamedRoutine_erase_embedding (n : Node) :
    (n.erase Key.embedding).isNamedRoutine = n.isNamedRoutine := by
  unfold Node.isNamedRoutine
  rw [Node.name?_erase_of_ne (by decide)]
  rfl

/-! ### Attaching vectors -/

theorem erase_attach (nodes : List Node) (vectors : List Embedding) :
    (attach nodes vectors).map (·.erase Key.embedding) = nodes.map (·.erase Key.embedding) := by
  fun_induction attach nodes vectors with
  | case1 n nodes v vectors _ ih => rw [List.map_cons, List.map_cons, Node.erase_set, ih]
  | case2 n nodes v vectors _ ih => rw [List.map_cons, List.map_cons, ih]
  | case3 => rfl

theorem filter_attach_of_not (nodes : List Node) (vectors : List Embedding) :
    (attach nodes vectors).filter (!·.isNamedRoutine) = nodes.filter (!·.isNamedRoutine) := by
  fun_induction attach nodes vectors with
  | case1 n nodes v vectors hsome ih =>
      rw [isSome_embeddedText?] at hsome
      rw [List.filter_cons_of_neg (by simp [isNamedRoutine_set_embedding, hsome]),
        List.filter_cons_of_neg (by simp [hsome]), ih]
  | case2 n nodes v vectors _ ih => rw [List.filter_cons, List.filter_cons, ih]
  | case3 => rfl

/-- With as many vectors as there are named routines, each of them gets the one in its place. -/
theorem get?_filter_attach {nodes : List Node} {vectors : List Embedding}
    (h : vectors.length = (nodes.filter Node.isNamedRoutine).length) :
    ((attach nodes vectors).filter Node.isNamedRoutine).map (·.get? Key.embedding) =
      vectors.map fun v => some (Embedding.json v) := by
  fun_induction attach nodes vectors with
  | case1 n nodes v vectors hsome ih =>
      rw [isSome_embeddedText?] at hsome
      rw [List.filter_cons_of_pos hsome, List.length_cons, List.length_cons] at h
      rw [List.filter_cons_of_pos ((isNamedRoutine_set_embedding n _).trans hsome), List.map_cons,
        List.map_cons, Node.get?_set_self, ih (Nat.succ.inj h)]
  | case2 n nodes v vectors hnone ih =>
      rw [isSome_embeddedText?] at hnone
      rw [List.filter_cons_of_neg hnone] at h ⊢
      exact ih h
  | case3 nodes vectors hend =>
      -- One of the two lists has run out, and so has the other, named routines being counted.
      cases vectors with
      | nil =>
          rw [List.eq_nil_of_length_eq_zero h.symm]
          rfl
      | cons v vectors =>
          cases nodes with
          | nil => simp at h
          | cons n nodes => exact absurd rfl (hend n nodes v vectors rfl)

theorem embed_of_fits {embedder : Embedder} {f : Fragment} {vectors : List Embedding}
    (hanswer : embedder f.routineNames = .ok vectors)
    (hlength : vectors.length = f.namedRoutines.length) :
    embed embedder f.nodes = attach f.nodes vectors := by
  have hcount := length_filterMap_embeddedText? f.nodes
  unfold embed
  dsimp only
  split
  case isTrue hempty =>
    -- Nothing is asked, and nothing is what was answered.
    rw [List.isEmpty_iff.mp hempty, List.length_nil] at hcount
    have hnil : vectors = [] := List.eq_nil_of_length_eq_zero (hlength.trans hcount.symm)
    rw [hnil]
    cases f.nodes <;> rfl
  case isFalse =>
    rw [filterMap_embeddedText?]
    have hanswer' :
        embedder ((f.nodes.filter Node.isNamedRoutine).filterMap Node.name?) = .ok vectors :=
      hanswer
    rw [hanswer']
    dsimp only
    rw [if_pos]
    rw [← filterMap_embeddedText?, hcount]
    exact hlength

theorem embed_of_not_fits {embedder : Embedder} {f : Fragment}
    (h : ∀ vectors, embedder f.routineNames = .ok vectors →
      vectors.length ≠ f.namedRoutines.length) :
    embed embedder f.nodes = f.nodes := by
  have hcount := length_filterMap_embeddedText? f.nodes
  unfold embed
  dsimp only
  split
  · rfl
  · split
    case h_1 vectors hanswer =>
      rw [filterMap_embeddedText?] at hanswer
      rw [if_neg]
      rw [hcount]
      exact h vectors hanswer
    case h_2 => rfl

theorem erase_embed (embedder : Embedder) (nodes : List Node) :
    (embed embedder nodes).map (·.erase Key.embedding) = nodes.map (·.erase Key.embedding) := by
  unfold embed
  dsimp only
  split
  · rfl
  · split
    · split
      · exact erase_attach nodes _
      · rfl
    · rfl

end Processor

/-! ### The records of a file -/

namespace Record

def node? : Record → Option Node
  | .node n => some n
  | .edge _ => none

def erase (r : Record) (key : String) : Record :=
  match r with
  | .node n => .node (n.erase key)
  | .edge e => .edge e

end Record

namespace Processor

/-- The records have the answer of an embedder at the right nodes: the named routines are those of
the fragment, in its order; if there are as many vectors, each of them carries the vector in its
place; and nothing else carries one. -/
structure Aligned (answer : Except Failure (List Embedding)) (f : Fragment) (rs : List Record) :
    Prop where
  routines : ((rs.filterMap Record.node?).filter Node.isNamedRoutine).map
    (·.erase Key.embedding) = f.namedRoutines
  fits : ∀ vectors, answer = .ok vectors → vectors.length = f.namedRoutines.length →
    ((rs.filterMap Record.node?).filter Node.isNamedRoutine).map (·.get? Key.embedding) =
      vectors.map fun v => some (Embedding.json v)
  others : ∀ n, .node n ∈ rs → n.isNamedRoutine = false → n.get? Key.embedding = none
  fails : (∀ vectors, answer = .ok vectors → vectors.length ≠ f.namedRoutines.length) →
    ∀ n, .node n ∈ rs → n.get? Key.embedding = none

theorem node?_records (embedder : Embedder) (path language : String) (f : Fragment) :
    (records embedder path language f).filterMap Record.node? =
      fileNode path language :: embed embedder f.nodes := by
  have hnodes : ∀ ns : List Node, (ns.map Record.node).filterMap Record.node? = ns := by
    intro ns
    rw [List.filterMap_map]
    exact List.filterMap_some
  have hedges : ∀ es : List Edge, (es.map Record.edge).filterMap Record.node? = [] := by
    intro es
    rw [List.filterMap_map]
    exact List.filterMap_eq_nil_iff.mpr fun _ _ => rfl
  simp [records, hnodes, hedges, Record.node?]

theorem erase_records (embedder embedder' : Embedder) (path language : String) (f : Fragment) :
    (records embedder path language f).map (·.erase Key.embedding) =
      (records embedder' path language f).map (·.erase Key.embedding) := by
  have hnodes : ∀ ns : List Node, (ns.map Record.node).map (·.erase Key.embedding) =
      (ns.map (·.erase Key.embedding)).map Record.node := by
    intro ns
    rw [List.map_map, List.map_map]
    rfl
  simp only [records, List.map_append, List.map_cons, hnodes, erase_embed]

theorem isNamedRoutine_fileNode (path language : String) :
    (fileNode path language).isNamedRoutine = false := rfl

theorem get?_embedding_fileNode (path language : String) :
    (fileNode path language).get? Key.embedding = none := by
  rw [fileNode, Node.get?_set_of_ne (by decide), Node.get?_set_of_ne (by decide),
    Node.get?_set_of_ne (by decide)]
  rfl

theorem erase_nodes_of_fresh {f : Fragment} (hfresh : f.Each fun n => n.get? Key.embedding = none) :
    f.nodes.map (·.erase Key.embedding) = f.nodes := by
  conv_rhs => rw [← List.map_id f.nodes]
  exact List.map_congr_left fun n hn => Node.erase_eq_self (hfresh n hn)

theorem aligned_records {f : Fragment} (hfresh : f.Each fun n => n.get? Key.embedding = none)
    (embedder : Embedder) (path language : String) :
    Aligned (embedder f.routineNames) f (records embedder path language f) := by
  have hmem : ∀ n, .node n ∈ records embedder path language f →
      n = fileNode path language ∨ n ∈ embed embedder f.nodes := by
    intro n hn
    have hn' : n ∈ (records embedder path language f).filterMap Record.node? :=
      List.mem_filterMap.mpr ⟨_, hn, rfl⟩
    rw [node?_records, List.mem_cons] at hn'
    exact hn'
  have hrouted : ((records embedder path language f).filterMap Record.node?).filter
      Node.isNamedRoutine = (embed embedder f.nodes).filter Node.isNamedRoutine := by
    rw [node?_records, List.filter_cons_of_neg (by simp [isNamedRoutine_fileNode])]
  constructor
  case routines =>
    have hcomp : Node.isNamedRoutine ∘ (·.erase Key.embedding) = Node.isNamedRoutine :=
      funext isNamedRoutine_erase_embedding
    calc _ = ((embed embedder f.nodes).filter
            (Node.isNamedRoutine ∘ (·.erase Key.embedding))).map (·.erase Key.embedding) := by
          rw [hrouted, hcomp]
      _ = ((embed embedder f.nodes).map (·.erase Key.embedding)).filter Node.isNamedRoutine := by
          rw [List.filter_map]
      _ = f.namedRoutines := by rw [erase_embed, erase_nodes_of_fresh hfresh]; rfl
  case fits =>
    intro vectors hanswer hlength
    rw [hrouted, embed_of_fits hanswer hlength]
    exact get?_filter_attach hlength
  case others =>
    intro n hn hother
    rcases hmem n hn with rfl | hn
    · exact get?_embedding_fileNode path language
    · by_cases hfits : ∃ vectors, embedder f.routineNames = .ok vectors ∧
          vectors.length = f.namedRoutines.length
      · -- A node that is no named routine is left as the fragment has it.
        obtain ⟨vectors, hanswer, hlength⟩ := hfits
        rw [embed_of_fits hanswer hlength] at hn
        have hn' : n ∈ (attach f.nodes vectors).filter (!·.isNamedRoutine) :=
          List.mem_filter.mpr ⟨hn, by simp [hother]⟩
        rw [filter_attach_of_not] at hn'
        exact hfresh n (List.mem_of_mem_filter hn')
      · rw [embed_of_not_fits fun vectors hanswer hlength =>
          hfits ⟨vectors, hanswer, hlength⟩] at hn
        exact hfresh n hn
  case fails =>
    intro hfails n hn
    rcases hmem n hn with rfl | hn
    · exact get?_embedding_fileNode path language
    · rw [embed_of_not_fits hfails] at hn
      exact hfresh n hn

end Processor

/-! ### An output that takes everything -/

/-- The output takes every record; `taken` tells which it has taken. -/
def Emitter.Accepts (σ : Type) [Emitter σ] (taken : σ → List Record) : Prop :=
  ∀ (r : Record) (s : σ), ∃ s', (Emitter.emit r).run s = (.ok (), s') ∧ taken s' = taken s ++ [r]

section Accepting

variable {σ : Type} [Emitter σ] {taken : σ → List Record}

theorem Emitter.Accepts.emitAll (h : Emitter.Accepts σ taken) (rs : List Record) (s : σ) :
    ∃ s', (emitAll rs).run s = (.ok (), s') ∧ taken s' = taken s ++ rs := by
  induction rs generalizing s with
  | nil => exact ⟨s, rfl, (List.append_nil _).symm⟩
  | cons r rs ih =>
      obtain ⟨s₁, hemit, htaken⟩ := h r s
      obtain ⟨s₂, hrest, htaken'⟩ := ih s₁
      refine ⟨s₂, ?_, ?_⟩
      · rw [Job.emitAll_cons, hemit]
        exact hrest
      · rw [htaken', htaken, List.append_assoc, List.singleton_append]

/-- The verdict on a study when all of its records are taken; a crash has none. -/
def Study.verdict? : Study → Option Verdict
  | .skipped => some (.ok .skipped)
  | .failed => some (.ok .failed)
  | .crashed => none
  | .records _ => some (.ok .processed)

namespace Processor

theorem process_of_accepts (h : Emitter.Accepts σ taken) (p : Processor) (path : String) (s : σ) :
    ((p.process path).run s).1 = (p.study path).verdict? ∧
      taken ((p.process path).run s).2 = taken s ++ (p.study path).pending := by
  rw [Job.process_run]
  cases p.study path with
  | records rs =>
      obtain ⟨s', hrun, htaken⟩ := h.emitAll rs s
      dsimp only
      rw [hrun]
      exact ⟨rfl, htaken⟩
  | _ => exact ⟨rfl, (List.append_nil _).symm⟩

theorem study_of_not_yields {p : Processor} {path : String}
    (h : ¬∃ language f, p.Yields path language f) (embedder : Embedder) :
    { p with embedder := embedder }.study path = p.study path ∧ (p.study path).pending = [] := by
  cases hlookup : p.registry.lookupPath? path with
  | none => simp [study, hlookup, Study.pending]
  | some analyzer =>
      cases hread : p.read path with
      | error e => simp [study, hlookup, hread, Study.pending]
      | ok content =>
          cases hanalyze : analyzer.analyze ⟨path, content.bytes⟩ content.tree with
          | ok f => exact absurd ⟨_, f, analyzer, content, hlookup, rfl, hread, .inl hanalyze⟩ h
          | error fault =>
              cases fault with
              | crash => simp [study, hlookup, hread, hanalyze, Study.pending]
              | failure e =>
                  cases hfound : e.found? with
                  | none => simp [study, hlookup, hread, hanalyze, hfound, Study.pending]
                  | some f =>
                      -- What was found is not kept, or it would be a fragment to emit.
                      have hkeep : p.keepFound = false := by
                        rw [Bool.eq_false_iff]
                        exact fun hkeep => h ⟨_, f, analyzer, content, hlookup, rfl, hread,
                          .inr ⟨hkeep, e, hfound, hanalyze⟩⟩
                      simp [study, hlookup, hread, hanalyze, hfound, hkeep, Study.pending]

/-- Under any two embedders a file has the same outcome and gives the same records up to
embeddings, when its fragment has no embeddings of its own; and under each of them the answer of
the embedder is found at the right nodes. -/
theorem process_same_up_to_embeddings (h : Emitter.Accepts σ taken) (p : Processor) (path : String)
    (hfresh : ∀ language f, p.Yields path language f →
      f.Each fun n => n.get? Key.embedding = none)
    (e e' : Embedder) (s s' : σ) :
    let out := ({ p with embedder := e }.process path).run s
    let out' := ({ p with embedder := e' }.process path).run s'
    out.1 = out'.1 ∧
      ∃ rs rs', taken out.2 = taken s ++ rs ∧ taken out'.2 = taken s' ++ rs' ∧
        rs.map (·.erase Key.embedding) = rs'.map (·.erase Key.embedding) ∧
        ∀ language f, p.Yields path language f →
          Aligned (e f.routineNames) f rs ∧ Aligned (e' f.routineNames) f rs' := by
  intro out out'
  obtain ⟨hverdict, htaken⟩ := process_of_accepts h { p with embedder := e } path s
  obtain ⟨hverdict', htaken'⟩ := process_of_accepts h { p with embedder := e' } path s'
  -- Which fragment is to be emitted does not depend on the embedder.
  have hstudy : ∀ embedder language f, p.Yields path language f →
      { p with embedder := embedder }.study path = .records (records embedder path language f) :=
    fun embedder language f hf => study_eq_records_iff.mpr ⟨language, f, hf, rfl⟩
  by_cases hyields : ∃ language f, p.Yields path language f
  case pos =>
    obtain ⟨language, f, hf⟩ := hyields
    refine ⟨?_, _, _, htaken, htaken', ?_, fun language' f' hf' => ⟨?_, ?_⟩⟩
    · rw [hverdict, hverdict', hstudy e language f hf, hstudy e' language f hf]
      rfl
    · rw [hstudy e language f hf, hstudy e' language f hf]
      exact erase_records e e' path language f
    · rw [hstudy e language' f' hf']
      exact aligned_records (hfresh language' f' hf') e path language'
    · rw [hstudy e' language' f' hf']
      exact aligned_records (hfresh language' f' hf') e' path language'
  case neg =>
    obtain ⟨hsame, hnone⟩ := study_of_not_yields hyields e
    obtain ⟨hsame', -⟩ := study_of_not_yields hyields e'
    refine ⟨?_, _, _, htaken, htaken', ?_, fun language f hf => absurd ⟨language, f, hf⟩ hyields⟩
    · rw [hverdict, hverdict', hsame, hsame']
    · rw [hsame, hsame']

end Processor

end Accepting

/-- An output that keeps every record. -/
structure Ledger where
  records : List Record := []

instance : Emitter Ledger where
  emit r := fun l => (.ok (), ⟨l.records ++ [r]⟩)
  close := pure ()

theorem Ledger.accepts : Emitter.Accepts Ledger Ledger.records :=
  fun r l => ⟨⟨l.records ++ [r]⟩, rfl, rfl⟩

/-- Two routines of a Visual Basic file, once with a vector each and once without an answer. -/
theorem Processor.two_routines_same_up_to_embeddings :
    ∃ (p : Processor) (f : Fragment) (e e' : Embedder) (v w : Embedding),
      p.Yields "a.vb" "vbnet" f ∧ (f.Each fun n => n.get? Key.embedding = none) ∧
        f.routineNames = ["A", "B"] ∧ e f.routineNames = .ok [v, w] ∧ v ≠ w ∧
        (∃ reason, e' f.routineNames = .error reason) ∧
        let out := ({ p with embedder := e }.process "a.vb").run ({} : Ledger)
        let out' := ({ p with embedder := e' }.process "a.vb").run ({} : Ledger)
        out.1 = out'.1 ∧
          out.2.records.map (·.erase Key.embedding) = out'.2.records.map (·.erase Key.embedding) ∧
          ((out.2.records.filterMap Record.node?).filter Node.isNamedRoutine).map
            (·.get? Key.embedding) = [some (Embedding.json v), some (Embedding.json w)] ∧
          ∀ n, .node n ∈ out'.2.records → n.get? Key.embedding = none := by
  let source : SourceFile :=
    ⟨"a.vb", Utf8.encode "Sub A()\nEnd Sub\nFunction B()\nEnd Function".toList⟩
  let v : Embedding := [Binary64.zero]
  let w : Embedding := [⟨0x3ff0000000000000⟩]
  let e : Embedder := fun _ => .ok [v, w]
  let e' : Embedder := fun _ => .error (.embedding "no service")
  let p : Processor :=
    { registry := Registry.default, embedder := e, read := fun _ => .ok { bytes := source.bytes } }
  have hlookup : Registry.default.lookupPath? "a.vb" = some (Analyzer.ofLanguage .vbnet) := by
    rfl
  have hyields : p.Yields "a.vb" "vbnet" (Vb.analyze source) :=
    ⟨_, _, hlookup, rfl, rfl, .inl rfl⟩
  have honly : ∀ language f, p.Yields "a.vb" language f → f = Vb.analyze source := by
    rintro language f ⟨analyzer, content, hfound, -, hread, hanalyze | ⟨hkeep, -⟩⟩
    · obtain rfl := Option.some.inj (hfound.symm.trans hlookup)
      obtain rfl := Except.ok.inj hread
      exact (Except.ok.inj hanalyze).symm
    · cases hkeep
  have hnames : (Vb.analyze source).routineNames = ["A", "B"] := by decide +kernel
  have hfresh : (Vb.analyze source).Each fun n => n.get? Key.embedding = none := by
    have hall : (Vb.analyze source).nodes.all (fun n => (n.get? Key.embedding).isNone) = true := by
      decide +kernel
    intro n hn
    exact Option.isNone_iff_eq_none.mp (List.all_eq_true.mp hall n hn)
  have hcount : (Vb.analyze source).namedRoutines.length = 2 := by decide +kernel
  obtain ⟨hverdict, rs, rs', hrs, hrs', herase, haligned⟩ :=
    process_same_up_to_embeddings Ledger.accepts p "a.vb"
      (fun language f hf => honly language f hf ▸ hfresh) e e' {} {}
  obtain ⟨hrouted, hunrouted⟩ := haligned "vbnet" _ hyields
  refine ⟨p, Vb.analyze source, e, e', v, w, hyields, hfresh, hnames, rfl, by decide, ⟨_, rfl⟩,
    hverdict, ?_, ?_, ?_⟩
  · rw [hrs, hrs']
    exact herase
  · rw [hrs]
    exact hrouted.fits [v, w] rfl hcount.symm
  · rw [hrs']
    exact hunrouted.fails fun vectors hanswer => by cases hanswer

end CodeGraph
