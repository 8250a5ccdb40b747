import CobolFlow.Build.Scope
import CobolFlow.Proofs.Faultless.Procedures
import CobolFlow.Proofs.Faultless.Splice
import CobolFlow.Proofs.Joins

/-!
# Where statements end up

A scope is sound if its graph and its catalog are and every handle beside them is in range: those
of the open sentence, procedure and forks, of the block that was current before the DECLARATIVES,
and of everything that waits for the end of the division. A step on the graph or on the catalog
becomes a step on the scope, which keeps all other handles because nothing is ever removed.

## Main definitions

* `Scope.WellFormed` — the invariant

## Main results

* `Build.editGraph_faultless`, `Build.editProcedures_faultless` — steps on a part of the scope
* `Build.newBlock_faultless` — a new block is in range, and no call site
-/

namespace CobolFlow

/-- The blocks and the slot of the sentence are in range. -/
structure Sentence.Inside (t : Sentence) (g : Graph) : Prop where
  blocks : ∀ b ∈ t.blocks, b < g.size
  entry : ∀ s ∈ t.entry, s < g.slots.size

theorem Sentence.Inside.mono {t : Sentence} {g g' : Graph} (h : t.Inside g) (hle : g ≤ g') :
    t.Inside g' where
  blocks b hb := (h.blocks b hb).trans_le hle.1
  entry s hs := (h.entry s hs).trans_le hle.2.1

namespace Scope

/-- The sizes of the graph and of the catalog. -/
def extent (s : Scope) : (ℕ × ℕ × ℕ) × (ℕ × ℕ) := (s.graph.extent, s.procedures.extent)

/-- Every handle of the scope is in range. -/
structure WellFormed (s : Scope) : Prop where
  graph : Sound s.graph
  procedures : Sound s.procedures
  sentence : ∀ {i : SentenceId} {t : Sentence}, s.procedures.sentences[i]? = some t →
    t.Inside s.graph
  currentBlock : ∀ b ∈ s.currentBlock, b < s.graph.size
  currentSentence : ∀ i ∈ s.currentSentence, i < s.procedures.sentences.size
  currentSection : ∀ p ∈ s.currentSection, p < s.procedures.procedures.size
  currentParagraph : ∀ p ∈ s.currentParagraph, p < s.procedures.procedures.size
  forks : ∀ f ∈ s.forks, f.Inside s.graph
  declaratives : ∀ b ∈ s.declaratives, b < s.graph.size
  jumps : ∀ w ∈ s.pending.jumps, w.block < s.graph.size
  nextSentences : ∀ w ∈ s.pending.nextSentences, w.block < s.graph.size
  performs : ∀ w ∈ s.pending.performs, w.group < s.graph.groups.size

instance : Growing Scope where
  __ := Preorder.lift extent
  Sound := WellFormed

variable {s s' : Scope}

theorem le_of_extent_eq (h : s.extent = s'.extent) : s ≤ s' :=
  le_of_eq (α := (ℕ × ℕ × ℕ) × (ℕ × ℕ)) h

theorem WellFormed.withGraph (hs : Sound s) {g : Graph} (hg : Sound g) (hle : s.graph ≤ g) :
    Sound { s with graph := g } :=
  { hs with
    graph := hg
    sentence := fun h => (hs.sentence h).mono hle
    currentBlock := fun b hb => (hs.currentBlock b hb).trans_le hle.1
    forks := fun f hf => (hs.forks f hf).mono hle
    declaratives := fun b hb => (hs.declaratives b hb).trans_le hle.1
    jumps := fun w hw => (hs.jumps w hw).trans_le hle.1
    nextSentences := fun w hw => (hs.nextSentences w hw).trans_le hle.1
    performs := fun w hw => (hs.performs w hw).trans_le hle.2.2 }

theorem WellFormed.withProcedures (hs : Sound s) {c : Procedures} (hc : Sound c)
    (hle : s.procedures ≤ c)
    (hsentence : ∀ (i : SentenceId) t, c.sentences[i]? = some t → t.Inside s.graph) :
    Sound { s with procedures := c } :=
  { hs with
    procedures := hc
    sentence := fun {i} _ h => hsentence i _ h
    currentSentence := fun i hi => (hs.currentSentence i hi).trans_le hle.2
    currentSection := fun p hp => (hs.currentSection p hp).trans_le hle.1
    currentParagraph := fun p hp => (hs.currentParagraph p hp).trans_le hle.1 }

end Scope

namespace Build

variable {s : Scope} {α : Type}

/-! ### Steps on a part of the scope -/

theorem editGraph_faultless {e : Graph.Edit α} {P : α → Graph → Prop}
    (h : Faultless e s.graph P) :
    Faultless (editGraph e) s fun a s' => s' = { s with graph := s'.graph } ∧ P a s'.graph := by
  intro hs
  obtain ⟨a, g, hrun, hg, hle, ha⟩ := h hs.graph
  refine ⟨a, { s with graph := g }, ?_, hs.withGraph hg hle, ⟨hle, le_rfl⟩, rfl, ha⟩
  rw [editGraph, hrun]
  rfl

theorem editProcedures_faultless {e : Procedures.Edit α} {P : α → Procedures → Prop}
    (h : Faultless e s.procedures P)
    (hsentence : Sound s → ∀ a c, P a c → ∀ (i : SentenceId) t, c.sentences[i]? = some t →
      t.Inside s.graph) :
    Faultless (editProcedures e) s fun a s' =>
      s' = { s with procedures := s'.procedures } ∧ P a s'.procedures := by
  intro hs
  obtain ⟨a, c, hrun, hc, hle, ha⟩ := h hs.procedures
  refine ⟨a, { s with procedures := c }, ?_,
    hs.withProcedures hc hle (hsentence hs a c ha), ⟨le_rfl, hle⟩, rfl, ha⟩
  rw [editProcedures, hrun]
  rfl

/-- A step on the catalog that leaves the sentences alone. -/
theorem editProcedures_faultless_of_sentences_eq {e : Procedures.Edit α}
    {P : α → Procedures → Prop}
    (h : Faultless e s.procedures fun a c => P a c ∧ c.sentences = s.procedures.sentences) :
    Faultless (editProcedures e) s fun a s' =>
      s' = { s with procedures := s'.procedures } ∧ P a s'.procedures :=
  (editProcedures_faultless h fun hs _ _ hsame _ _ ht => hs.sentence (hsame.2 ▸ ht)).mono
    fun _ _ _ _ h => ⟨h.1, h.2.1⟩

theorem report_faultless (p : Problem) : Faultless (report p) s fun _ _ => True :=
  .modify (fun hs => { hs with }) (Scope.le_of_extent_eq rfl) trivial

theorem violate_faultless (v : Violation) :
    Faultless (violate v) s fun _ s' => s'.graph = s.graph :=
  .modify (fun hs => { hs with }) (Scope.le_of_extent_eq rfl) rfl

theorem setCurrent_faultless {b : BlockId} (h : b < s.graph.size) :
    Faultless (setCurrent b) s fun _ _ => True :=
  .modify (fun hs =>
    { hs with currentBlock := fun c hc => by simpa using Option.mem_some.1 hc ▸ h })
    (Scope.le_of_extent_eq rfl) trivial

/-! ### Blocks -/

theorem currentTag_faultless : Faultless currentTag s fun _ s' => s' = s := by
  refine .get_bind fun hs => ?_
  split
  · next p hp =>
    have hlt : p < s.procedures.procedures.size := by
      obtain hp | ⟨-, hp⟩ := Option.or_eq_some_iff.1 hp
      · exact hs.currentParagraph p hp
      · exact hs.currentSection p hp
    obtain ⟨procedure, hok, -⟩ := Procedures.exists_procedure_eq_ok hlt
    exact .lift_bind hok (.pure fun _ => rfl)
  · exact .pure fun _ => rfl

theorem modifySentence_faultless {i : SentenceId} (h : i < s.procedures.sentences.size)
    {f : Sentence → Sentence}
    (hf : Sound s → ∀ t, s.procedures.sentences[i]? = some t → (f t).Inside s.graph) :
    Faultless (editProcedures (Procedures.modifySentence i f)) s fun _ s' =>
      s'.graph = s.graph := by
  refine (editProcedures_faultless (Procedures.modifySentence_faultless h f) ?_).mono ?_
  · rintro hs _ c rfl j t ht
    rw [Array.getElem?_modify] at ht
    split at ht
    · next hij =>
      subst hij
      obtain ⟨old, hold, rfl⟩ := Option.map_eq_some_iff.1 ht
      exact hf hs old hold
    · exact hs.sentence ht
  · rintro _ s' _ _ ⟨h, -⟩
    rw [h]

/-- A block in range that is no call site. -/
def Vacant (b : BlockId) (s : Scope) : Prop := b < s.graph.size ∧ ¬ s.graph.IsCallSite b

theorem Vacant.keep {b : BlockId} {s s' : Scope} (h : Vacant b s) (hle : s ≤ s')
    (hgroups : s'.graph.groups = s.graph.groups) : Vacant b s' :=
  ⟨h.1.trans_le hle.1.1, fun hcall => h.2 ((Graph.isCallSite_congr hgroups).1 hcall)⟩

/-- What is left of `newBlock` once the block is filled in: it is listed with the open sentence. -/
def enlist (b : BlockId) : Build BlockId := do
  if let some sentence := (← get).currentSentence then
    editProcedures <|
      Procedures.modifySentence sentence fun t => { t with blocks := t.blocks ++ [b] }
  return b

theorem enlist_faultless {b : BlockId} {s₀ : Scope} (hvacant : Vacant b s₀) :
    Faultless (enlist b) s₀ Vacant := by
  refine .get_bind fun hs₀ => ?_
  split
  · next sentence hsentence =>
    refine .bind (modifySentence_faultless (hs₀.currentSentence _ hsentence) ?_) ?_
    · intro hs₀ t ht
      have hin := hs₀.sentence ht
      refine { hin with blocks := fun c hc => ?_ }
      obtain hc | hc := List.mem_append.1 hc
      · exact hin.blocks c hc
      · exact List.mem_singleton.1 hc ▸ hvacant.1
    · exact fun _ s₁ _ h₁ hsame => .pure fun _ => hvacant.keep h₁ (by rw [hsame])
  · exact .pure fun _ => hvacant

/-- A new block is in range, and no call site. -/
theorem newBlock_faultless (leading : Option Instruction) :
    Faultless (newBlock leading) s Vacant := by
  intro hs
  refine Faultless.bind (editGraph_faultless Graph.addBlock_faultless) ?_ hs
  rintro b s₁ - h₁ ⟨-, rfl, hlt, hgroups₁⟩
  have hvacant₁ : Vacant s.graph.size s₁ :=
    ⟨hlt, fun hcall => (((Graph.isCallSite_congr hgroups₁).1 hcall).lt_size hs.graph).false⟩
  refine .bind currentTag_faultless ?_
  rintro tag _ - - rfl
  refine .get_bind fun _ => ?_
  refine .bind (editGraph_faultless (Graph.relabel_faultless hlt (fun _ => rfl) (fun _ => rfl)
    fun _ => rfl)) ?_
  rintro _ s₂ - h₂ ⟨-, hgroups₂⟩
  have hvacant₂ := hvacant₁.keep h₂ hgroups₂
  dsimp only
  split
  · refine .bind (editGraph_faultless (Graph.appendInstruction_faultless hvacant₂.1 _)) ?_
    exact fun _ s₃ _ h₃ hgroups₃ => enlist_faultless (hvacant₂.keep h₃ hgroups₃.2)
  · exact enlist_faultless hvacant₂

theorem current?_faultless :
    Faultless current? s fun b? s' => s'.graph = s.graph ∧ ∀ b ∈ b?, b < s'.graph.size := by
  refine .get_bind fun hs => ?_
  dsimp only
  split
  · refine .bind (violate_faultless _) fun _ s' _ _ hsame => .pure fun _ => ?_
    rw [hsame]
    exact ⟨rfl, hs.currentBlock⟩
  · exact .pure fun _ => ⟨rfl, hs.currentBlock⟩

theorem addInstruction_faultless (i : Instruction) :
    Faultless (addInstruction i) s fun _ _ => True := by
  refine .bind current?_faultless fun b? s₁ _ _ hb => ?_
  split
  · exact (editGraph_faultless (Graph.appendInstruction_faultless (hb.2 _ rfl) i)).runs
  · exact .pure fun _ => trivial

theorem markCurrent_faultless (f : BlockFlags) :
    Faultless (markCurrent f) s fun _ _ => True := by
  refine .bind current?_faultless fun b? s₁ _ _ hb => ?_
  split
  · exact (editGraph_faultless (Graph.markBlock_faultless (hb.2 _ rfl) f)).runs
  · exact .pure fun _ => trivial

end Build

end CobolFlow
