import CobolFlow.Build.Replay
import CobolFlow.Proofs.Division.Opening
import CobolFlow.Proofs.Writing.Desk

/-!
# The small steps of a build

Whatever comes, in the protocol or out of it, a scope changes in a few ways only: something is
noted, written or linked in the graph, a block is added and listed with the open sentence, and so
on. `Scope.Step` lists these ways, each with the scope it leaves. Where DECLARATIVES are left and
where ranges are captured and spliced in, more happens at a time; `Scope.Move` has these as well.

So what is to be shown of every build is shown of one small step, and holds of whole builds by
induction. Nothing is assumed of the handles: `Within R x` says only that what `x` leaves, if it
answers, is reached by steps of `R`.

## Main definitions

* `Graph.Step`, `Scope.Step`, `Scope.Stride`, `Scope.Move` — one small step
* `Within` — a step of a build is made of small steps
-/

namespace CobolFlow

/-- The block begins with an out-of-line PERFORM. -/
def Graph.Performs (g : Graph) (b : BlockId) : Prop :=
  ∃ block, g.blocks[b]? = some block ∧ ∃ i ∈ block.instructions.head?, i.tag = .perform

/-- One small edit of a graph in the making. -/
inductive Graph.Step (g : Graph) : Graph → Prop
  /-- Something is noted beside the blocks. -/
  | note (roots : List BlockId) (owners : List (NodeId × BlockId))
      (nodes : List (NodeId × NodeInfo))
      (division : Option NodeId) (compound : Bool) :
      Step g { g with roots, owners, nodes, division, compound }
  /-- Something is written at the end of a block, and marks are added. -/
  | write (b : BlockId) (is : List Instruction) (m : BlockFlags)
      (hm : m.finish = false ∧ m.declaratives = false ∧ m.grafted = false ∧ m.start = false) :
      Step g { g with blocks := g.blocks.modify b fun block =>
        { block with instructions := block.instructions ++ is, flags := block.flags.union m } }
  | slot (c : BlockId) : Step g { g with slots := g.slots.push c }
  | link (b : BlockId) (k : SlotId)
      (h : ∀ block, g.blocks[b]? = some block → k ∉ block.successors) :
      Step g { g with blocks := g.blocks.modify b (·.addSuccessor k) }
  | edge (b c : BlockId) : Step g (g.withEdge b c)
  /-- An empty group is opened at a block that begins with a PERFORM. -/
  | call (b : BlockId) (node : NodeId) (range : String) (h : g.Performs b) :
      Step g { g with
        groups := g.groups.push { id := g.groups.size, callSite := b, node, range }
        blocks := g.blocks.modify b ({ · with group := some g.groups.size }) }
  /-- The last block is added. -/
  | finish : Step g (g.grow { finish := true } none)

/-- One small step of a build. -/
inductive Scope.Step (s : Scope) : Scope → Prop
  | graph {g : Graph} (h : s.graph.Step g) : Step s { s with graph := g }
  /-- Neither the graph nor the catalog changes, and no sentence is opened. -/
  | aside {s' : Scope} (hgraph : s'.graph = s.graph) (hprocedures : s'.procedures = s.procedures)
      (hdeclaratives : s'.declaratives = s.declaratives)
      (hsentence : s'.currentSentence = s.currentSentence ∨ s'.currentSentence = none) : Step s s'
  /-- A block is added, and listed with the open sentence. -/
  | grow (tag : Option String) : Step s { s with
      graph := s.graph.grow { declaratives := s.declaratives.isSome } tag
      procedures := s.procedures.list s.currentSentence [s.graph.size] }
  /-- The catalog changes, but for its sentences. -/
  | declare {c : Procedures} (h : c.sentences = s.procedures.sentences) :
      Step s { s with procedures := c }
  /-- A sentence is opened, in which there is no block yet. -/
  | openSentence {c : Procedures} {owner : Option ProcedureId}
      (h : c.sentences = s.procedures.sentences.push
        { id := s.procedures.sentences.size, owner, declaratives := s.declaratives.isSome }) :
      Step s { s with procedures := c, currentSentence := some s.procedures.sentences.size }
  /-- A slot is noted that leads into a sentence. -/
  | entry (j : SentenceId) (k : SlotId) :
      Step s { s with procedures.sentences := s.procedures.sentences.modify j fun t =>
        { t with entry := some k } }
  | enterDeclaratives (b : BlockId) : Step s { s with declaratives := some b }

/-- One step short of the end of a division. -/
inductive Scope.Stride (s : Scope) : Scope → Prop
  | step {s' : Scope} (h : s.Step s') : Stride s s'
  | leaveDeclaratives : Stride s { s with declaratives := none }

/-- One step of a build, however large. -/
inductive Scope.Move (s : Scope) : Scope → Prop
  | step {s' : Scope} (h : s.Step s') : Move s s'
  | leaveDeclaratives : Move s { s with declaratives := none }
  /-- A block is marked as the one where the division is entered. -/
  | start {b : BlockId} {g : Graph}
      (h : Graph.markBlock b { start := true } s.graph = .ok ((), g)) :
      Move s { s with graph := g }
  /-- A call is found to close a cycle. -/
  | markRecursive {i : GroupId} {g : Graph}
      (h : Graph.modifyGroup i (fun group => { group with recursive := true }) s.graph
        = .ok ((), g)) :
      Move s { s with graph := g }
  | relocate {s' : Scope} {w : PendingPerform} {range : String} {captured : List BlockId}
      (h : Build.relocate w range captured s = .ok ((), s')) : Move s s'
  | graft {o : Options} {g : Graph} (h : Build.graftGroups o s.graph = .ok ((), g)) :
      Move s { s with graph := g }

theorem Scope.Stride.move {s s' : Scope} (h : s.Stride s') : s.Move s' := by
  cases h with
  | step h => exact .step h
  | leaveDeclaratives => exact .leaveDeclaratives

/-- What the step leaves, if it answers, is reached by steps of `R`. -/
def Within {σ α : Type} (R : σ → σ → Prop) (x : StateT σ (Except Fault) α) : Prop :=
  ∀ s, Ensures x s fun _ s' => Relation.ReflTransGen R s s'

namespace Within

variable {σ α β γ : Type} {R R' : σ → σ → Prop} {x : StateT σ (Except Fault) α}

theorem mono (h : Within R x) (hR : ∀ s s', R s s' → R' s s') : Within R' x :=
  fun s => (h s).mono fun _ _ h => Relation.ReflTransGen.mono hR _ _ h

theorem pure (a : α) : Within R (Pure.pure a : StateT σ (Except Fault) α) := fun _ => .pure .refl

theorem get : Within R (get : StateT σ (Except Fault) σ) := by
  rintro s _ _ ⟨⟩
  exact .refl

theorem lift (e : Except Fault α) : Within R (liftM e : StateT σ (Except Fault) α) :=
  fun _ => .lift fun _ _ => .refl

/-- A step goes on from where another has led. -/
theorem ensures {f : α → StateT σ (Except Fault) β} {s s' : σ} {a : α} (hf : Within R (f a))
    (h : Relation.ReflTransGen R s s') :
    Ensures (f a) s' fun _ s'' => Relation.ReflTransGen R s s'' :=
  (hf s').mono fun _ _ h' => h.trans h'

theorem bind {f : α → StateT σ (Except Fault) β} (h : Within R x) (hf : ∀ a, Within R (f a)) :
    Within R (x >>= f) :=
  fun s => (h s).bind fun a _ h₁ => (hf a).ensures h₁

theorem modify {f : σ → σ} (h : ∀ s, R s (f s)) :
    Within R (modify f : StateT σ (Except Fault) PUnit) :=
  fun s => .modify (.single (h s))

/-- A step that writes back what it has read, changed in one place. -/
theorem get_set_bind {f : σ → σ} {g : σ → StateT σ (Except Fault) β} (h : ∀ s, R s (f s))
    (hg : ∀ s, Within R (g s)) :
    Within R (MonadState.get >>= fun s => MonadStateOf.set (f s) >>= fun _ : PUnit => g s) :=
  fun s => .get_bind (.set_bind ((hg s).ensures (.single (h s))))

theorem forIn {l : List γ} {init : α} {f : γ → α → StateT σ (Except Fault) (ForInStep α)}
    (hf : ∀ c a, Within R (f c a)) : Within R (ForIn.forIn l init f) :=
  fun _ => .forIn .refl fun c _ a _ h => (hf c a).ensures (f := fun _ => f c a) (a := a) h

theorem foldlM {l : List γ} {init : α} {f : α → γ → StateT σ (Except Fault) α}
    (hf : ∀ a c, Within R (f a c)) : Within R (l.foldlM f init) :=
  fun _ => .foldlM .refl fun c _ a _ h => (hf a c).ensures (f := fun _ => f a c) (a := a) h

theorem filterM {l : List γ} {f : γ → StateT σ (Except Fault) Bool}
    (hf : ∀ c, Within R (f c)) : Within R (l.filterM f) :=
  fun _ => .filterM .refl fun c _ _ h => (hf c).ensures (f := fun _ => f c) (a := c) h

theorem mapM {l : List γ} {f : γ → StateT σ (Except Fault) α} (hf : ∀ c, Within R (f c)) :
    Within R (l.mapM f) :=
  fun s => .mapM (I := fun _ s' => Relation.ReflTransGen R s s') .refl fun c _ _ _ h =>
    (hf c).ensures (f := fun _ => f c) (a := c) h

theorem forM {l : List γ} {f : γ → StateT σ (Except Fault) PUnit} (hf : ∀ c, Within R (f c)) :
    Within R (l.forM f) :=
  fun _ => .forM .refl fun c _ _ h => (hf c).ensures (f := fun _ => f c) (a := c) h

end Within

/-! ### Edits of a graph -/

namespace Graph

variable {α : Type} {g g' : Graph} {b c : BlockId} {k : SlotId}

theorem newSlot_steps (c : BlockId) : Within Step (newSlot c) :=
  fun _ => .modifyGet (.single (.slot c))

theorem addEdge_steps (b c : BlockId) : Within Step (addEdge b c) := by
  refine fun g => .bind
    (P := fun k g₁ => k = g.slots.size ∧ g₁ = { g with slots := g.slots.push c })
    (.modifyGet ⟨rfl, rfl⟩) ?_
  rintro _ _ ⟨rfl, rfl⟩
  refine .bind (P := fun _ g' => g' = g.withEdge b c) ?_ fun _ _ h =>
    .pure (h ▸ .single (.edge b c))
  exact fun _ _ h => ((modifyBlock_eq_ok_iff _ _ _ _).1 h).2

theorem link_steps (b : BlockId) (k : SlotId) : Within Step (link b k) := by
  refine fun g => .get_bind (.lift_bind fun block hblock => ?_)
  split
  · exact .pure .refl
  · next hk =>
    refine .bind (P := fun _ g' => Relation.ReflTransGen Step g g') ?_ fun _ _ h => .pure h
    intro _ g' h
    obtain ⟨-, rfl⟩ := (modifyBlock_eq_ok_iff _ _ _ _).1 h
    refine .single (.link b k fun block' hblock' => ?_)
    obtain rfl := Option.some.inj (((block_eq_ok_iff g b block).1 hblock).symm.trans hblock')
    simpa using hk

theorem addRoot_steps (b : BlockId) : Within Step (addRoot b) := by
  refine fun g => .modify ?_
  split
  · exact .refl
  · exact .single (.note _ _ _ _ _)

theorem openDivision_steps (n : NodeId) : Within Step (openDivision n) :=
  .modify fun _ => .note _ _ _ _ _

theorem recordNode_steps (n : Node) : Within Step (recordNode n) :=
  .modify fun _ => .note _ _ _ _ _

theorem setBlockFor_steps (n : NodeId) (b : BlockId) : Within Step (setBlockFor n b) :=
  .modify fun _ => .note _ _ _ _ _

theorem markCompound_steps : Within Step markCompound := .modify fun _ => .note _ _ _ _ _

theorem markBlock_steps (b : BlockId) {m : BlockFlags}
    (hm : m.finish = false ∧ m.declaratives = false ∧ m.grafted = false ∧ m.start = false) :
    Within Step (markBlock b m) := by
  intro g _ g' h
  obtain ⟨-, rfl⟩ := (modifyBlock_eq_ok_iff _ _ _ _).1 h
  have hmark : (·.mark m) = fun block : Block =>
      { block with instructions := block.instructions ++ [], flags := block.flags.union m } := by
    funext block
    simp [Block.mark]
  rw [hmark]
  exact .single (.write b [] m hm)

theorem appendInstruction_steps (b : BlockId) (i : Instruction) :
    Within Step (appendInstruction b i) := by
  refine .bind ?_ fun _ => setBlockFor_steps _ _
  intro g _ g' h
  obtain ⟨-, rfl⟩ := (modifyBlock_eq_ok_iff _ _ _ _).1 h
  have happend : (·.append i) = fun block : Block => { block with
      instructions := block.instructions ++ [i], flags := block.flags.union .none } := by
    funext block
    simp [Block.append]
  rw [happend]
  exact .single (.write b [i] .none ⟨rfl, rfl, rfl, rfl⟩)

theorem addGroup_steps (hb : g.Performs b) (node : NodeId) (range : String) :
    Ensures (addGroup b node range) g fun _ g' => Relation.ReflTransGen Step g g' := by
  intro i g' hrun
  obtain ⟨-, rfl⟩ := Build.addGroup_opens b node range i g' hrun
  exact .single (.call b node range hb)

end Graph

namespace Fork

theorem addBranch_steps (f : Fork) (b : BlockId) : Within Graph.Step (f.addBranch b) := by
  unfold addBranch
  split
  · exact .bind (Graph.addEdge_steps _ _) fun _ => .pure _
  · exact .pure _

theorem close_steps (f : Fork) (originToNext : Bool) (stop : Option BlockId) (next : BlockId) :
    Within Graph.Step (f.close originToNext stop next) := by
  refine .bind .get fun g => .bind (.lift _) fun _ =>
    .bind (.filterM fun _ => ?_) fun unjoined => ?_
  · exact .bind (.lift _) fun _ => .pure _
  · generalize unjoined ++ (if originToNext then f.origin.toList else []) = sources
    dsimp only
    split
    · exact .pure _
    · exact .bind (Graph.newSlot_steps next) fun _ => .bind (.forIn fun _ _ =>
        .bind (Graph.link_steps _ _) fun _ => .pure _) fun _ => .pure _

end Fork

/-! ### Steps on a part of the scope -/

/-- Small edits of the graph are small steps. -/
theorem Scope.steps_graph (s : Scope) {g g' : Graph} (h : Relation.ReflTransGen Graph.Step g g') :
    Relation.ReflTransGen Step { s with graph := g } { s with graph := g' } :=
  Relation.ReflTransGen.lift (fun g => { s with graph := g }) (fun _ _ hg => Step.graph hg) _ _ h

namespace Build

open Scope (Step Move)

variable {α : Type}

theorem exists_of_editGraph_eq_ok {e : Graph.Edit α} {s s' : Scope} {a : α}
    (h : editGraph e s = .ok (a, s')) :
    ∃ g, e s.graph = .ok (a, g) ∧ s' = { s with graph := g } := by
  rw [editGraph] at h
  cases he : e s.graph with
  | error fault =>
    rw [he] at h
    cases h
  | ok r =>
    rw [he] at h
    cases h
    exact ⟨r.2, rfl, rfl⟩

theorem exists_of_editProcedures_eq_ok {e : Procedures.Edit α} {s s' : Scope} {a : α}
    (h : editProcedures e s = .ok (a, s')) :
    ∃ c, e s.procedures = .ok (a, c) ∧ s' = { s with procedures := c } := by
  rw [editProcedures] at h
  cases he : e s.procedures with
  | error fault =>
    rw [he] at h
    cases h
  | ok r =>
    rw [he] at h
    cases h
    exact ⟨r.2, rfl, rfl⟩

theorem editGraph_steps {e : Graph.Edit α} (h : Within Graph.Step e) :
    Within Step (editGraph e) := by
  intro s a s' hrun
  obtain ⟨g, he, rfl⟩ := exists_of_editGraph_eq_ok hrun
  exact Scope.steps_graph s (h s.graph _ _ he)

theorem editProcedures_steps {e : Procedures.Edit α}
    (h : ∀ c, Ensures e c fun _ c' => c'.sentences = c.sentences) :
    Within Step (editProcedures e) := by
  intro s a s' hrun
  obtain ⟨c, he, rfl⟩ := exists_of_editProcedures_eq_ok hrun
  exact .single (.declare (h s.procedures _ _ he))

/-- An edit of a sentence, as an equation. -/
theorem eq_of_modifySentence_eq_ok {i : SentenceId} {f : Sentence → Sentence} {c c' : Procedures}
    (h : Procedures.modifySentence i f c = .ok ((), c')) :
    c' = { c with sentences := c.sentences.modify i f } := by
  unfold Procedures.modifySentence at h
  split at h
  · exact (Prod.mk.inj (Except.ok.inj h)).2.symm
  · exact nomatch h

/-- What is neither in the graph nor in the catalog may change. -/
theorem modify_steps {f : Scope → Scope} (hgraph : ∀ s, (f s).graph = s.graph)
    (hprocedures : ∀ s, (f s).procedures = s.procedures)
    (hdeclaratives : ∀ s, (f s).declaratives = s.declaratives)
    (hsentence : ∀ s, (f s).currentSentence = s.currentSentence ∨ (f s).currentSentence = none) :
    Within Step (modify f : Build Unit) :=
  .modify fun s => .aside (hgraph s) (hprocedures s) (hdeclaratives s) (hsentence s)

theorem report_steps (p : Problem) : Within Step (report p) :=
  modify_steps (fun _ => rfl) (fun _ => rfl) (fun _ => rfl) fun _ => .inl rfl

theorem violate_steps (v : Violation) : Within Step (violate v) :=
  modify_steps (fun _ => rfl) (fun _ => rfl) (fun _ => rfl) fun _ => .inl rfl

theorem setCurrent_steps (b : BlockId) : Within Step (setCurrent b) :=
  modify_steps (fun _ => rfl) (fun _ => rfl) (fun _ => rfl) fun _ => .inl rfl

/-- A new block is listed with the open sentence when it has been filled in, so what is noted and
written on the way is noted and written afterwards as well. -/
theorem newBlock_ensures_steps (leading : Option Instruction) (s : Scope) :
    Ensures (newBlock leading) s fun b s' => Relation.ReflTransGen Step s s' ∧
      ∃ block, s'.graph.blocks[b]? = some block ∧ block.instructions = leading.toList := by
  refine .bind (P := fun b s' => b = s.graph.size ∧ s' = { s with graph := { s.graph with
    blocks := s.graph.blocks.push { id := s.graph.blocks.size } } }) ?_ ?_
  · rintro _ _ ⟨⟩
    exact ⟨rfl, rfl⟩
  rintro _ _ ⟨rfl, rfl⟩
  refine .bind currentTag_ensures ?_
  rintro tag _ rfl
  set flags : BlockFlags := { declaratives := s.declaratives.isSome } with hflags
  refine .get_bind (.bind (P := fun _ s' => s' = { s with graph := s.graph.grow flags tag }) ?_ ?_)
  · intro _ s' hrun
    rw [editGraph_eq_ok (Graph.modifyBlock_addBlock s.graph rfl)] at hrun
    cases hrun
    rfl
  rintro _ _ rfl
  have hlisted : ∀ g : Graph, Relation.ReflTransGen Graph.Step (s.graph.grow flags tag) g →
      (∃ block, g.blocks[s.graph.size]? = some block ∧ block.instructions = leading.toList) →
      Ensures (enlist s.graph.size) { s with graph := g } fun b s' =>
        Relation.ReflTransGen Step s s' ∧
        ∃ block, s'.graph.blocks[b]? = some block ∧ block.instructions = leading.toList :=
    fun g hg hblock => by
    have hsteps := (Relation.ReflTransGen.single (Step.grow (s := s) tag)).trans
      (Scope.steps_graph { s with procedures := s.procedures.list s.currentSentence [s.graph.size] }
        hg)
    refine .get_bind ?_
    cases hi : s.currentSentence with
    | none =>
      rw [hi] at hsteps
      exact .pure ⟨hsteps, hblock⟩
    | some i =>
      rw [hi] at hsteps
      refine .bind (P := fun _ s' => Relation.ReflTransGen Step s s' ∧ s'.graph = g) ?_
        fun _ _ h => .pure ⟨h.1, h.2 ▸ hblock⟩
      intro _ s' hrun
      obtain ⟨c, hc, rfl⟩ := exists_of_editProcedures_eq_ok hrun
      rw [eq_of_modifySentence_eq_ok hc]
      exact ⟨hsteps, rfl⟩
  have hnew : (s.graph.grow flags tag).blocks[s.graph.size]? =
      some { id := s.graph.size, flags, tag } := Array.getElem?_push_size
  cases leading with
  | none => exact hlisted _ .refl ⟨_, hnew, rfl⟩
  | some i =>
    refine .bind (P := fun _ s' => ∃ g, Graph.appendInstruction s.graph.size i
      (s.graph.grow flags tag) = .ok ((), g) ∧ s' = { s with graph := g }) ?_ ?_
    · intro _ s' hrun
      exact exists_of_editGraph_eq_ok hrun
    · rintro _ _ ⟨g, hg, rfl⟩
      obtain ⟨⟨⟩, g₁, hmodify, hset⟩ := exists_of_run_bind_eq_ok hg
      obtain ⟨-, rfl⟩ := (Graph.modifyBlock_eq_ok_iff _ _ _ _).1 hmodify
      cases hset
      refine hlisted _ (Graph.appendInstruction_steps _ _ _ _ _ hg)
        ⟨Block.append { id := s.graph.size, flags, tag } i, ?_, rfl⟩
      change ((s.graph.grow flags tag).blocks.modify s.graph.size _)[s.graph.size]? = _
      rw [Array.getElem?_modify, if_pos rfl, hnew]
      rfl

theorem newBlock_steps (leading : Option Instruction) : Within Step (newBlock leading) :=
  fun s => (newBlock_ensures_steps leading s).mono fun _ _ h => h.1

theorem current?_steps : Within Step current? := by
  refine .bind .get fun s => ?_
  dsimp only
  split
  · exact .bind (violate_steps _) fun _ => .pure _
  · exact .pure _

theorem addInstruction_steps (i : Instruction) : Within Step (addInstruction i) := by
  refine .bind current?_steps fun b? => ?_
  split
  · exact editGraph_steps (Graph.appendInstruction_steps _ _)
  · exact .pure _

theorem markCurrent_steps {m : BlockFlags}
    (hm : m.finish = false ∧ m.declaratives = false ∧ m.grafted = false ∧ m.start = false) :
    Within Step (markCurrent m) := by
  refine .bind current?_steps fun b? => ?_
  split
  · exact editGraph_steps (Graph.markBlock_steps _ hm)
  · exact .pure _

end Build

end CobolFlow
