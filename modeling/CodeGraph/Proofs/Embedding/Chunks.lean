import CodeGraph.Embedding.Basic
import Mathlib.Data.List.Basic

/-!
Embedding in chunks. The calls are made on the consecutive chunks of the texts, one after the other
and up to the first that fails or answers with another number of vectors than its chunk has texts.
If every call fits its chunk, the vectors stand at the places of their texts.
-/

namespace CodeGraph.Embedding

/-! ### Chunks -/

section Chunks

variable {α β : Type} {size : Nat}

theorem chunks_of_ne_nil {s : List α} (hs : s ≠ []) (size : Nat) :
    chunks size s = s.take (max size 1) :: chunks size (s.drop (max size 1)) := by
  obtain ⟨a, s, rfl⟩ := List.exists_cons_of_ne_nil hs
  have hsize : max size 1 = size - 1 + 1 := by omega
  rw [chunks, hsize, List.take_succ_cons, List.drop_succ_cons]

/-- Induction along the chunks: from what is behind the first chunk to the whole list. -/
theorem chunks_induction (size : Nat) {motive : List α → Prop} (nil : motive [])
    (cons : ∀ s, s ≠ [] → motive (s.drop (max size 1)) → motive s) (s : List α) : motive s := by
  induction hn : s.length using Nat.strongRecOn generalizing s with
  | ind n ih =>
      by_cases hs : s = []
      · exact hs ▸ nil
      · have hlt : (s.drop (max size 1)).length < n := by
          have hpos := List.length_pos_iff.mpr hs
          rw [List.length_drop]
          omega
        exact cons s hs (ih _ hlt _ rfl)

theorem flatten_chunks (size : Nat) (s : List α) : (chunks size s).flatten = s := by
  induction s using chunks_induction size with
  | nil => simp [chunks]
  | cons s hs ih => rw [chunks_of_ne_nil hs, List.flatten_cons, ih, List.take_append_drop]

/-- The chunk at an index begins where the chunks before it end, and is full unless the list ends
within it. -/
theorem getElem?_chunks (size : Nat) (s : List α) (i : Nat) :
    (chunks size s)[i]? =
      if i * max size 1 < s.length then some ((s.drop (i * max size 1)).take (max size 1))
      else none := by
  induction s using chunks_induction size generalizing i with
  | nil => simp [chunks]
  | cons s hs ih =>
      rw [chunks_of_ne_nil hs]
      cases i with
      | zero => simp [List.length_pos_iff.mpr hs]
      | succ i =>
          have hbounds : i * max size 1 < s.length - max size 1 ↔
              (i + 1) * max size 1 < s.length := by
            rw [Nat.add_mul]
            omega
          rw [List.getElem?_cons_succ, ih, List.length_drop, List.drop_drop, Nat.add_mul,
            Nat.one_mul, Nat.add_comm (max size 1)]
          simp only [hbounds, Nat.add_mul, Nat.one_mul]

/-- What is joined from parts as long as the chunks of a list is found where it stands in its
part. -/
theorem getElem?_flatten_of_chunks {s : List α} {parts : List (List β)}
    (h : parts.map List.length = (chunks size s).map List.length) (i : Nat) :
    parts.flatten[i]? = parts[i / max size 1]?.bind (·[i % max size 1]?) := by
  induction s using chunks_induction size generalizing parts i with
  | nil =>
      obtain rfl : parts = [] := by simpa [chunks] using h
      simp
  | cons s hs ih =>
      rw [chunks_of_ne_nil hs] at h
      obtain ⟨part, rest, rfl⟩ := List.exists_cons_of_ne_nil (l := parts) (by rintro rfl; simp at h)
      simp only [List.map_cons, List.cons.injEq, List.length_take] at h
      obtain ⟨hpart, hrest⟩ := h
      have hpos : 0 < max size 1 := by omega
      rw [List.flatten_cons]
      rcases Nat.lt_or_ge i (max size 1) with hi | hi
      · rw [Nat.div_eq_of_lt hi, Nat.mod_eq_of_lt hi, List.getElem?_cons_zero, Option.bind_some]
        rcases Nat.lt_or_ge i part.length with hlt | hge
        · exact List.getElem?_append_left hlt
        · -- The list ends within its first chunk.
          have hend : s.drop (max size 1) = [] := List.drop_eq_nil_iff.mpr (by omega)
          obtain rfl : rest = [] := by simpa [hend, chunks] using hrest
          rw [List.flatten_nil, List.append_nil]
      · rw [Nat.div_eq_sub_div hpos hi, List.getElem?_cons_succ, Nat.mod_eq_sub_mod hi,
          ← ih hrest]
        rcases Nat.lt_or_ge s.length (max size 1) with hlt | hge
        · have hend : s.drop (max size 1) = [] := List.drop_eq_nil_iff.mpr (by omega)
          obtain rfl : rest = [] := by simpa [hend, chunks] using hrest
          rw [List.flatten_nil, List.append_nil, List.getElem?_nil,
            List.getElem?_eq_none (by omega)]
        · rw [List.getElem?_append_right (by omega), hpart, Nat.min_eq_left hge]

end Chunks

/-! ### Calls -/

/-- One call of a service: what it was asked and what it answered. -/
structure Exchange where
  chunk : List String
  answer : Except Failure (List Embedding)

namespace Exchange

/-- The call did not fail and gave one vector for each text. -/
def Fits (x : Exchange) : Prop :=
  ∃ vectors, x.answer = .ok vectors ∧ vectors.length = x.chunk.length

def vectors (x : Exchange) : List Embedding :=
  match x.answer with
  | .ok vectors => vectors
  | .error _ => []

/-- The failure of a call that does not fit: its own, or one that tells the numbers. -/
def refusal (x : Exchange) : Failure :=
  match x.answer with
  | .ok vectors => .embedding ("expected " ++ toString x.chunk.length ++ " embeddings, got "
      ++ toString vectors.length)
  | .error e => e

theorem Fits.length_vectors {x : Exchange} (h : x.Fits) : x.vectors.length = x.chunk.length := by
  obtain ⟨vectors, hanswer, hlength⟩ := h
  simpa [Exchange.vectors, hanswer] using hlength

end Exchange

variable {σ : Type} (call : List String → ExceptT Failure (StateM σ) (List Embedding))

/-- Calls of a service one after the other, with its state before them and after them. -/
inductive Calls : σ → List Exchange → σ → Prop
  | none (s : σ) : Calls s [] s
  | more {s s' s'' : σ} {chunk : List String} {answer : Except Failure (List Embedding)}
      {later : List Exchange} (h : (call chunk).run s = (answer, s')) (rest : Calls s' later s'') :
      Calls s (⟨chunk, answer⟩ :: later) s''

/-- How calls that are to be made on some chunks end: with all answers, or at the first call that
does not fit. -/
inductive Ends (pieces : List (List String)) (made : List Exchange) :
    Except Failure (List Embedding) → Prop
  | answered (hmade : made.map Exchange.chunk = pieces) (hfits : ∀ x ∈ made, x.Fits) :
      Ends pieces made (.ok (made.flatMap Exchange.vectors))
  | refused {before : List Exchange} {last : Exchange} (hmade : made = before ++ [last])
      (hfront : made.map Exchange.chunk <+: pieces) (hfits : ∀ x ∈ before, x.Fits)
      (hlast : ¬last.Fits) : Ends pieces made (.error last.refusal)

/-- The service, with a list of the chunks that it is called with. -/
def recorded (chunk : List String) :
    ExceptT Failure (StateM (List (List String) × σ)) (List Embedding) :=
  fun (log, s) => let (answer, s') := (call chunk).run s; (answer, (log ++ [chunk], s'))

def gather (pieces : List (List String)) : ExceptT Failure (StateM σ) (List Embedding) := do
  let answers ← pieces.mapM (callChecked call)
  return answers.flatten

section Runs

variable {α β : Type} {act : ExceptT Failure (StateM σ) α} {next : α → ExceptT Failure (StateM σ) β}
  {s s' : σ}

theorem run_bind_of_ok {a : α} (h : act.run s = (.ok a, s')) :
    (act >>= next).run s = (next a).run s' := by
  have hact : StateT.run act.run s = (.ok a, s') := h
  change StateT.run (act >>= next).run s = _
  rw [ExceptT.run_bind, StateT.run_bind, hact]
  rfl

theorem run_bind_of_error {e : Failure} (h : act.run s = (.error e, s')) :
    (act >>= next).run s = (.error e, s') := by
  have hact : StateT.run act.run s = (.error e, s') := h
  change StateT.run (act >>= next).run s = _
  rw [ExceptT.run_bind, StateT.run_bind, hact]
  rfl

end Runs

variable {call} {x : Exchange} {pieces : List (List String)} {s s' : σ}

theorem callChecked_run_of_fits (hcall : (call x.chunk).run s = (x.answer, s')) (h : x.Fits) :
    (callChecked call x.chunk).run s = (.ok x.vectors, s') := by
  have hlength := h.length_vectors
  obtain ⟨vectors, hanswer, -⟩ := h
  rw [Exchange.vectors, hanswer] at hlength ⊢
  rw [callChecked, run_bind_of_ok (hanswer ▸ hcall), if_pos hlength]
  rfl

theorem callChecked_run_of_not_fits (hcall : (call x.chunk).run s = (x.answer, s'))
    (h : ¬x.Fits) : (callChecked call x.chunk).run s = (.error x.refusal, s') := by
  rw [Exchange.refusal]
  cases hanswer : x.answer with
  | error e => rw [callChecked, run_bind_of_error (hanswer ▸ hcall)]
  | ok vectors =>
      rw [callChecked, run_bind_of_ok (hanswer ▸ hcall),
        if_neg fun hlength => h ⟨vectors, hanswer, hlength⟩]
      rfl

theorem gather_cons (chunk : List String) (pieces : List (List String)) :
    gather call (chunk :: pieces) = (do
      let vectors ← callChecked call chunk
      let later ← gather call pieces
      return vectors ++ later) := by
  simp [gather, List.mapM_cons]

/-- Calls that end decide what is gathered. -/
theorem gather_run {made : List Exchange} {result : Except Failure (List Embedding)}
    (hcalls : Calls call s made s') (hends : Ends pieces made result) :
    (gather call pieces).run s = (result, s') := by
  induction hcalls generalizing pieces result with
  | none s =>
      cases hends with
      | answered hmade => rw [← hmade]; rfl
      | refused hmade => simp at hmade
  | @more s s₁ s' chunk answer later hcall hlater ih =>
      cases hends with
      | answered hmade hfits =>
          obtain ⟨hx, hfits⟩ := List.forall_mem_cons.mp hfits
          rw [← hmade, List.map_cons, gather_cons,
            run_bind_of_ok (callChecked_run_of_fits hcall hx),
            run_bind_of_ok (ih (.answered rfl hfits))]
          rfl
      | @refused before last hmade hfront hfits hlast =>
          obtain ⟨rest, rfl⟩ := hfront
          rw [List.map_cons, List.cons_append, gather_cons]
          cases before with
          | nil =>
              obtain ⟨rfl, rfl⟩ := List.cons.inj hmade
              cases hlater
              exact run_bind_of_error (callChecked_run_of_not_fits hcall hlast)
          | cons x before =>
              obtain ⟨rfl, rfl⟩ := List.cons.inj hmade
              obtain ⟨hx, hfits⟩ := List.forall_mem_cons.mp hfits
              rw [run_bind_of_ok (callChecked_run_of_fits hcall hx),
                run_bind_of_error (ih (.refused rfl (List.prefix_append _ rest) hfits hlast))]

/-- Whatever the service does, the calls end. -/
theorem exists_calls (call : List String → ExceptT Failure (StateM σ) (List Embedding))
    (pieces : List (List String)) (s : σ) :
    ∃ made s' result, Calls call s made s' ∧ Ends pieces made result := by
  induction pieces generalizing s with
  | nil => exact ⟨[], s, _, .none s, .answered rfl (by simp)⟩
  | cons chunk pieces ih =>
      obtain ⟨answer, s₁, hcall⟩ : ∃ answer s₁, (call chunk).run s = (answer, s₁) := ⟨_, _, rfl⟩
      let x : Exchange := ⟨chunk, answer⟩
      by_cases hx : x.Fits
      · obtain ⟨made, s', result, hcalls, hends⟩ := ih s₁
        refine ⟨x :: made, s', ?_⟩
        cases hends with
        | answered hmade hfits =>
            exact ⟨_, .more hcall hcalls,
              .answered (by simp [x, hmade]) (List.forall_mem_cons.mpr ⟨hx, hfits⟩)⟩
        | refused hmade hfront hfits hlast =>
            exact ⟨_, .more hcall hcalls,
              .refused (by rw [hmade, List.cons_append])
                ((List.prefix_cons_inj chunk).mpr hfront)
                (List.forall_mem_cons.mpr ⟨hx, hfits⟩) hlast⟩
      · exact ⟨[x], s₁, _, .more hcall (.none s₁),
          .refused (List.nil_append [x]).symm (List.prefix_append [chunk] pieces) (by simp) hx⟩

theorem Calls.recorded {made : List Exchange} (h : Calls call s made s')
    (log : List (List String)) :
    Calls (Embedding.recorded call) (log, s) made (log ++ made.map Exchange.chunk, s') := by
  induction h generalizing log with
  | none s => simpa using Calls.none (log, s)
  | @more s s₁ s' chunk answer later hcall _ ih =>
      have hrecorded : (Embedding.recorded call chunk).run (log, s) =
          (answer, (log ++ [chunk], s₁)) := by
        change (let (answer, s₁) := (call chunk).run s; (answer, (log ++ [chunk], s₁))) = _
        rw [hcall]
      simpa using Calls.more hrecorded (ih (log ++ [chunk]))

theorem Calls.exists_answer {made : List Exchange} (h : Calls call s made s') :
    ∀ x ∈ made, ∃ t, ((call x.chunk).run t).1 = x.answer := by
  induction h with
  | none => simp
  | more hcall _ ih => exact List.forall_mem_cons.mpr ⟨⟨_, by rw [hcall]⟩, ih⟩

/-- Where all calls fit, the vectors are as many as the texts, and each stands where the call of
its chunk has put it. -/
theorem Ends.aligned {size : Nat} {texts : List String} {made : List Exchange}
    {vectors : List Embedding} (h : Ends (chunks size texts) made (.ok vectors)) :
    vectors.length = texts.length ∧ ∀ i, vectors[i]? =
      made[i / max size 1]?.bind fun x => x.vectors[i % max size 1]? := by
  cases h with
  | answered hmade hfits =>
      have hlengths : (made.map Exchange.vectors).map List.length =
          (chunks size texts).map List.length := by
        rw [← hmade, List.map_map, List.map_map]
        exact List.map_congr_left fun x hx => (hfits x hx).length_vectors
      rw [List.flatMap_def]
      constructor
      · rw [List.length_flatten, hlengths, ← List.length_flatten, flatten_chunks]
      · intro i
        rw [getElem?_flatten_of_chunks hlengths, List.getElem?_map, Option.bind_map]
        rfl

/-- A service that maps each text to its vector gives that for all texts. -/
theorem Ends.eq_map {size : Nat} {texts : List String} {made : List Exchange}
    {result : Except Failure (List Embedding)} (h : Ends (chunks size texts) made result)
    {f : String → Embedding} (hf : ∀ x ∈ made, x.answer = .ok (x.chunk.map f)) :
    result = .ok (texts.map f) := by
  have hvectors : ∀ x ∈ made, x.vectors = x.chunk.map f := fun x hx => by
    rw [Exchange.vectors, hf x hx]
  have hall : ∀ x ∈ made, x.Fits := fun x hx => ⟨_, hf x hx, List.length_map f⟩
  cases h with
  | answered hmade =>
      rw [List.flatMap_congr hvectors, ← List.flatMap_map, hmade, List.flatMap_def,
        ← List.map_flatten, flatten_chunks]
  | refused hmade _ _ hlast => exact absurd (hall _ (by simp [hmade])) hlast

/-! ### Embedding in chunks -/

/-- The calls of a service, whatever its state and its answers, are made on the consecutive chunks
of the texts, in order and none after the first that does not fit its chunk. If one does not, its
failure is the result. Otherwise the result is the concatenation of the answers, with a vector for
each text at the place where the call of its chunk has put it. A service that maps each text to its
vector gives the same for every size of the chunks. -/
theorem inChunks_aligned (size : Nat) (texts : List String)
    (call : List String → ExceptT Failure (StateM σ) (List Embedding)) (s : σ) :
    (∀ i, (chunks size texts)[i]? =
      if i * max size 1 < texts.length then some ((texts.drop (i * max size 1)).take (max size 1))
      else none) ∧
    ∃ made s' result, Calls call s made s' ∧ Ends (chunks size texts) made result ∧
      (inChunks size call texts).run s = (result, s') ∧
      (inChunks size (recorded call) texts).run ([], s) =
        (result, made.map Exchange.chunk, s') ∧
      (∀ vectors, result = .ok vectors → vectors.length = texts.length ∧ ∀ i, vectors[i]? =
        made[i / max size 1]?.bind fun x => x.vectors[i % max size 1]?) ∧
      (∀ f, (∀ chunk t, ((call chunk).run t).1 = .ok (chunk.map f)) →
        result = .ok (texts.map f)) := by
  refine ⟨getElem?_chunks size texts, ?_⟩
  obtain ⟨made, s', result, hcalls, hends⟩ := exists_calls call (chunks size texts) s
  refine ⟨made, s', result, hcalls, hends, gather_run hcalls hends,
    gather_run (hcalls.recorded []) hends, ?_, fun f hf => hends.eq_map fun x hx => ?_⟩
  · rintro vectors rfl
    exact hends.aligned
  · obtain ⟨t, hanswer⟩ := hcalls.exists_answer x hx
    rw [← hanswer, hf]

/-- Two chunks for a service that counts its calls and gives a vector as wide as its text. -/
theorem two_chunks_aligned :
    let widths (text : String) : Embedding := List.replicate text.length Binary64.zero
    let call (chunk : List String) : ExceptT Failure (StateM Nat) (List Embedding) :=
      fun n => (.ok (chunk.map widths), n + 1)
    (∀ chunk n, ((call chunk).run n).1 = .ok (chunk.map widths)) ∧
    ∃ made, Calls call 0 made 2 ∧
      made.map Exchange.chunk = [["a", "bb"], ["ccc"]] ∧
      (inChunks 2 call ["a", "bb", "ccc"]).run 0 =
        (.ok [widths "a", widths "bb", widths "ccc"], 2) ∧
      made[1]?.bind (fun x => x.vectors[0]?) = some (widths "ccc") := by
  intro widths call
  have hcall : ∀ chunk n, ((call chunk).run n).1 = .ok (chunk.map widths) := fun _ _ => rfl
  refine ⟨hcall, ?_⟩
  obtain ⟨-, made, n, result, hcalls, -, hrun, hrecorded, haligned, hmap⟩ :=
    inChunks_aligned 2 ["a", "bb", "ccc"] call 0
  obtain rfl := hmap widths hcall
  have hpieces : chunks 2 ["a", "bb", "ccc"] = [["a", "bb"], ["ccc"]] := by simp [chunks]
  have hlog : (inChunks 2 (recorded call) ["a", "bb", "ccc"]).run ([], 0) =
      (.ok [widths "a", widths "bb", widths "ccc"], [["a", "bb"], ["ccc"]], 2) := by
    change (gather (recorded call) (chunks 2 ["a", "bb", "ccc"])).run ([], 0) = _
    rw [hpieces]
    rfl
  obtain ⟨-, hstate⟩ := Prod.mk.inj (hlog.symm.trans hrecorded)
  obtain ⟨hmade, rfl⟩ := Prod.mk.inj hstate
  exact ⟨made, hcalls, hmade.symm, hrun, ((haligned _ rfl).2 2).symm⟩

end CodeGraph.Embedding
