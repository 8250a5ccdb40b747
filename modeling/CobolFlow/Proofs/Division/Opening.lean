import CobolFlow.Proofs.Division.Plan
import CobolFlow.Proofs.Faultless.Division

/-!
# Opening a sentence

What is left of a scope when a sentence is opened in it, as an equation: the sentence is in the
catalog, its first block is in the graph and is current, and control falls into it unless it begins
a USE procedure. What is remembered of nodes plays no part in this, so that a statement may as well
be entered after its sentence has been opened.

## Main definitions

* `Graph.grow`, `Graph.withEdge` — one more block, and one more edge
* `Scope.opened` — a scope in which a sentence has been opened

## Main results

* `Build.exists_startSentence_eq_ok` — opening a sentence, as an equation
-/

namespace CobolFlow

namespace Graph

variable {g : Graph} {b c : ℕ}

/-- One more block. -/
def grow (g : Graph) (flags : BlockFlags) (tag : Option String) : Graph :=
  { g with blocks := g.blocks.push { id := g.blocks.size, flags, tag } }

/-- One more edge, on a slot of its own. -/
def withEdge (g : Graph) (b c : BlockId) : Graph :=
  { g with
    slots := g.slots.push c
    blocks := g.blocks.modify b (·.addSuccessor g.slots.size) }

@[simp] theorem size_grow (flags : BlockFlags) (tag : Option String) :
    (g.grow flags tag).size = g.size + 1 := by
  simp [grow, size]

@[simp] theorem size_withEdge : (g.withEdge b c).size = g.size := by
  simp [withEdge, size]

theorem addEdge_eq_ok (hb : b < g.size) : addEdge b c g = .ok (g.slots.size, g.withEdge b c) := by
  rw [addEdge, run_bind (a := g.slots.size) (t := { g with slots := g.slots.push c }) rfl]
  have hmodify : modifyBlock b (·.addSuccessor g.slots.size) { g with slots := g.slots.push c } =
      .ok ((), g.withEdge b c) := (modifyBlock_eq_ok_iff _ _ _ _).2 ⟨hb, rfl⟩
  exact (run_bind hmodify _).trans rfl

/-- A block may be changed as soon as it is there. -/
theorem modifyBlock_addBlock (g : Graph) {f : Block → Block} {flags : BlockFlags}
    {tag : Option String}
    (hf : f { id := g.blocks.size } = { id := g.blocks.size, flags, tag }) :
    modifyBlock g.size f { g with blocks := g.blocks.push { id := g.blocks.size } } =
      .ok ((), g.grow flags tag) := by
  refine (modifyBlock_eq_ok_iff _ _ _ _).2 ⟨by simp [size], ?_⟩
  have hblocks : (g.grow flags tag).blocks =
      (g.blocks.push { id := g.blocks.size }).modify g.size f := by
    refine Array.ext_getElem? fun c => ?_
    rw [grow, Array.getElem?_modify, Array.getElem?_push, Array.getElem?_push]
    by_cases hc : c = g.blocks.size
    · simp [hc, size, hf]
    · simp [hc, size, Ne.symm hc]
  rw [← hblocks]
  rfl

theorem edited_grow (hg : Sound g) (flags : BlockFlags) (tag : Option String) :
    g.Edited tag (g.grow flags tag) (·.fresh { flags, tag }) := by
  obtain ⟨g₁, g₂, hadd, hmodify, hedit, -⟩ := exists_addBlock_edited tag hg flags
  obtain ⟨-, rfl⟩ := Prod.mk.inj (Except.ok.inj hadd)
  obtain ⟨-, rfl⟩ :=
    Prod.mk.inj (Except.ok.inj ((modifyBlock_addBlock g rfl).symm.trans hmodify))
  exact hedit

theorem edited_withEdge (hg : Sound g) (tag : Option String) (hb : b < g.size) (hc : c < g.size) :
    g.Edited tag (g.withEdge b c) (·.edge b c) := by
  obtain ⟨g', k, hrun, hedit, -⟩ := exists_addEdge_edited tag hg hb hc
  obtain ⟨-, rfl⟩ := Prod.mk.inj (Except.ok.inj ((addEdge_eq_ok hb).symm.trans hrun))
  exact hedit

theorem chart_grow (hg : Sound g) (flags : BlockFlags) (tag : Option String) (d : ℕ) :
    (g.grow flags tag).chart d = if d = g.size then { flags, tag } else g.chart d :=
  congrArg (fun Γ => Γ.chart d) ((edited_grow hg flags tag).sketch 0)

theorem chart_withEdge (hg : Sound g) (hb : b < g.size) (hc : c < g.size) (d : ℕ) :
    (g.withEdge b c).chart d =
      if d = b then { g.chart d with next := (g.chart d).next ++ [c] } else g.chart d :=
  congrArg (fun Γ => Γ.chart d) ((edited_withEdge hg none hb hc).sketch 0)

/-- A new block to which control falls from `b`. -/
theorem chart_grow_withEdge (hg : Sound g) (flags : BlockFlags) (tag : Option String)
    (hb : b < g.size) (d : ℕ) : ((g.grow flags tag).withEdge b g.size).chart d =
      if d = b then { g.chart d with next := (g.chart d).next ++ [g.size] }
      else if d = g.size then { flags, tag } else g.chart d := by
  have hedit := edited_grow hg flags tag
  rw [chart_withEdge hedit.sound (hb.trans_le hedit.le.1) (by simp), chart_grow hg]
  by_cases hd : d = b
  · rw [if_pos hd, if_pos hd, if_neg (hd ▸ hb.ne)]
  · rw [if_neg hd, if_neg hd]

end Graph

namespace Scope

/-- One more block, which belongs to the sentence. -/
def grow (s : Scope) : Scope :=
  { s with
    graph := s.graph.grow { declaratives := s.declaratives.isSome } s.tag
    procedures := s.procedures.list s.currentSentence [s.graph.size] }

/-- The scope with other things remembered of nodes. -/
def noting (s : Scope) (nodes : List (NodeId × NodeInfo)) : Scope :=
  { s with graph := { s.graph with nodes } }

/-- The scope with a first block for a sentence that is in the catalog `c`. -/
def begun (s : Scope) (c : Procedures) : Scope :=
  { ({ s with
      procedures := c, currentSentence := some s.procedures.sentences.size } : Scope).grow with
    declarativeEntry := false
    currentBlock := some s.graph.size }

/-- The scope after a sentence has been opened that is in the catalog `c`. -/
def opened (s : Scope) (c : Procedures) : Scope :=
  let t := s.begun c
  if s.declarativeEntry then
    { t with graph.roots := t.graph.roots ++ [s.graph.size] }
  else
    match s.currentBlock with
    | some b =>
      { t with
        graph := t.graph.withEdge b s.graph.size
        procedures.sentences := t.procedures.sentences.modify s.procedures.sentences.size fun t' =>
          { t' with entry := some t.graph.slots.size } }
    | none => t

section Opened

variable {s : Scope} (c : Procedures)

theorem opened_of_entry (h : s.declarativeEntry = true) : s.opened c =
    { s.begun c with graph.roots := (s.begun c).graph.roots ++ [s.graph.size] } := if_pos h

theorem opened_of_none (h : s.declarativeEntry = false) (hb : s.currentBlock = none) :
    s.opened c = s.begun c := by
  rw [opened, if_neg (by simp [h]), hb]

theorem opened_of_some {b : BlockId} (h : s.declarativeEntry = false)
    (hb : s.currentBlock = some b) : s.opened c =
      { s.begun c with
        graph := (s.begun c).graph.withEdge b s.graph.size
        procedures.sentences := (s.begun c).procedures.sentences.modify
          s.procedures.sentences.size fun t =>
            { t with entry := some (s.begun c).graph.slots.size } } := by
  rw [opened, if_neg (by simp [h]), hb]

/-- The three ways into a sentence. -/
theorem opened_cases {P : Scope → Prop}
    (hentry : s.declarativeEntry = true →
      P { s.begun c with graph.roots := (s.begun c).graph.roots ++ [s.graph.size] })
    (hnone : s.declarativeEntry = false → s.currentBlock = none → P (s.begun c))
    (hsome : ∀ b, s.declarativeEntry = false → s.currentBlock = some b →
      P { s.begun c with
        graph := (s.begun c).graph.withEdge b s.graph.size
        procedures.sentences := (s.begun c).procedures.sentences.modify
          s.procedures.sentences.size fun t =>
            { t with entry := some (s.begun c).graph.slots.size } }) : P (s.opened c) := by
  cases h : s.declarativeEntry with
  | true => exact opened_of_entry c h ▸ hentry h
  | false =>
    cases hb : s.currentBlock with
    | none => exact opened_of_none c h hb ▸ hnone h hb
    | some b => exact opened_of_some c h hb ▸ hsome b h hb

theorem opened_noting (nodes : List (NodeId × NodeInfo)) :
    (s.noting nodes).opened c = (s.opened c).noting nodes := by
  refine opened_cases c (P := fun t => (s.noting nodes).opened c = t.noting nodes) (fun h => ?_)
    (fun h hb => ?_) fun b h hb => ?_
  · exact opened_of_entry (s := s.noting nodes) c h
  · exact opened_of_none (s := s.noting nodes) c h hb
  · exact opened_of_some (s := s.noting nodes) c h hb

end Opened

end Scope

namespace Build

open Scope

variable {s : Scope}

theorem newBlock_eq_ok (hs : Sound s) : newBlock none s = .ok (s.graph.size, s.grow) := by
  have hmodify := Graph.modifyBlock_addBlock s.graph
    (f := fun block =>
      { block with tag := s.tag, flags := { declaratives := s.declaratives.isSome } })
    rfl
  rw [newBlock, run_bind (a := s.graph.size) (t := { s with graph := { s.graph with
    blocks := s.graph.blocks.push { id := s.graph.blocks.size } } }) rfl,
    run_bind (currentTag_eq_ok hs)]
  refine (run_bind (a := { s with graph := _ }) (t := { s with graph := _ }) rfl _).trans ?_
  refine (run_bind (editGraph_eq_ok (s := { s with graph := _ }) hmodify) _).trans ?_
  set g : Graph := s.graph.grow { declaratives := s.declaratives.isSome } s.tag with hg
  refine (run_bind (a := { s with graph := g }) (t := { s with graph := g }) rfl _).trans ?_
  cases hsentence : s.currentSentence with
  | none =>
    rw [Scope.grow, ← hg, hsentence]
    rfl
  | some i =>
    have hlt := hs.currentSentence i hsentence
    refine (run_bind (a := ⟨⟩) (t := s.grow) ?_ _).trans rfl
    rw [Scope.grow, ← hg, hsentence]
    simp only [editProcedures, Procedures.modifySentence, hlt, if_true]
    rfl

theorem exists_startSentence_eq_ok (hs : Sound s) : ∃ c,
    Procedures.addSentence (s.currentParagraph.or s.currentSection) s.declaratives.isSome
      s.procedures = .ok (s.procedures.sentences.size, c) ∧
    c.sentences = s.procedures.sentences.push
      { id := s.procedures.sentences.size, owner := s.currentParagraph.or s.currentSection
        declaratives := s.declaratives.isSome } ∧
    startSentence s = .ok ((), s.opened c) := by
  have howner : ∀ p ∈ s.currentParagraph.or s.currentSection, p < s.procedures.procedures.size :=
    fun p hp => (Option.or_eq_some_iff.1 hp).elim (hs.currentParagraph p)
      fun h => hs.currentSection p h.2
  obtain ⟨_, c, hadd, hc, hle, rfl, hlt, hpush⟩ :=
    Procedures.addSentence_faultless howner s.declaratives.isSome hs.procedures
  refine ⟨c, hadd, hpush, ?_⟩
  set s₁ : Scope := { s with procedures := c, currentSentence := some s.procedures.sentences.size }
  have hs₁ : Sound s₁ := by
    refine { hs.withProcedures hc hle fun j t ht => ?_ with
      currentSentence := fun i hi => Option.mem_some.1 hi ▸ hlt }
    rw [hpush, Array.getElem?_push] at ht
    split at ht
    · obtain rfl := Option.some.inj ht
      exact ⟨by simp, by simp⟩
    · exact hs.sentence ht
  have hsize : s.graph.size < s₁.grow.graph.size := by simp [Scope.grow, s₁]
  rw [startSentence, run_bind (a := s) (t := s) rfl]
  refine (run_bind (a := s.procedures.sentences.size) (t := { s with procedures := c })
    ?_ _).trans ?_
  · rw [editProcedures, hadd]
    rfl
  refine (run_bind (a := ⟨⟩) (t := s₁) rfl _).trans ?_
  refine (run_bind (newBlock_eq_ok hs₁) _).trans ?_
  refine (run_bind (a := s₁.grow) (t := s₁.grow) rfl _).trans ?_
  refine (run_bind (a := ⟨⟩) (t := { s₁.grow with declarativeEntry := false }) rfl _).trans ?_
  have hbegun : s.begun c =
      { s₁.grow with declarativeEntry := false, currentBlock := some s.graph.size } := rfl
  refine opened_cases c (P := fun t => _ = Except.ok ((), t)) (fun h => ?_) (fun h hb => ?_)
    fun b h hb => ?_
  · have hnew : ¬ s₁.grow.graph.roots.contains s.graph.size := by
      rw [List.contains_iff_mem]
      exact fun h => (hs.graph.root_lt _ h).ne rfl
    have hadd : Graph.addRoot s.graph.size s₁.grow.graph = .ok ((), { s₁.grow.graph with
        roots := s₁.grow.graph.roots ++ [s.graph.size] }) :=
      congrArg (fun g => Except.ok ((), g)) (if_neg hnew)
    rw [show s₁.grow.declarativeEntry = true from h]
    exact (run_bind (editGraph_eq_ok (s := { s₁.grow with declarativeEntry := false }) hadd)
      _).trans rfl
  · rw [show s₁.grow.declarativeEntry = false from h, show s₁.grow.currentBlock = none from hb]
    rfl
  · have hlt' : b < s₁.grow.graph.size := (hs.currentBlock b hb).trans hsize
    rw [show s₁.grow.declarativeEntry = false from h, show s₁.grow.currentBlock = some b from hb]
    refine (run_bind (editGraph_eq_ok (s := { s₁.grow with declarativeEntry := false })
      (Graph.addEdge_eq_ok hlt')) _).trans ?_
    refine (run_bind (a := ⟨⟩) (t := { s₁.grow with
      declarativeEntry := false
      graph := s₁.grow.graph.withEdge b s.graph.size
      procedures.sentences := s₁.grow.procedures.sentences.modify s.procedures.sentences.size
        fun t => { t with entry := some s₁.grow.graph.slots.size } }) ?_ _).trans rfl
    have hlt'' : s.procedures.sentences.size < s₁.grow.procedures.sentences.size := by
      simpa [Scope.grow, s₁, Procedures.list] using hlt
    simp only [editProcedures, Procedures.modifySentence, hlt'', if_true]
    rfl

end Build

end CobolFlow
