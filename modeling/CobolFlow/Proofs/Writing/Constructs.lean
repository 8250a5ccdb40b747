import CobolFlow.Proofs.Writing.Desk

/-!
# What each construct writes

Every statement and clause writes its own instruction and goes on in a block with room; WHEN, WHEN
OTHER and AT END phrases are written when their clause begins. While a construct with branches is
read its fork stays on the stack, and in a cascade the levels of the construct stay above it.

## Main definitions

* `Fork.Stacked` — the forks that an EVALUATE or a SEARCH keeps on the stack
* `Fork.waiting` — the phrases that wait for their clause

## Main results

* `Scope.Wrote.enterIf`, `Scope.Wrote.startWhen`, `Scope.Wrote.leaveSearch` and others — one for
  each construct and what happens in it
-/

namespace CobolFlow

/-- The forks above `outer` are that of the statement `i` and, in a cascade, its levels. -/
inductive Fork.Stacked (cascade : Bool) (i : Instruction) (outer : List Fork) : List Fork → Prop
  | own {f : Fork} (hf : f.opener = some i) : Stacked cascade i outer (f :: outer)
  | level {f : Fork} {fs : List Fork} (hc : cascade = true) (hf : f.opener = none)
    (h : Stacked cascade i outer fs) : Stacked cascade i outer (f :: fs)

/-- The phrases that wait in the innermost fork. -/
def Fork.waiting (fs : List Fork) : List Instruction := (fs.head?.map (·.phrases)).getD []

@[simp] theorem Fork.waiting_cons (f : Fork) (fs : List Fork) :
    Fork.waiting (f :: fs) = f.phrases := rfl

namespace Fork.Stacked

variable {cascade : Bool} {i : Instruction} {outer fs : List Fork} {f f' : Fork}

theorem exists_cons (h : Stacked cascade i outer fs) : ∃ f rest, fs = f :: rest := by
  cases h <;> exact ⟨_, _, rfl⟩

/-- The innermost fork may change if who opened it does not. -/
theorem congr (h : Stacked cascade i outer (f :: fs)) (hf : f'.opener = f.opener) :
    Stacked cascade i outer (f' :: fs) := by
  cases h with
  | own hi => exact .own (hf.trans hi)
  | level hc hnone h => exact .level hc (hf.trans hnone) h

/-- The levels and the fork of the statement. -/
theorem exists_levels (h : Stacked cascade i outer fs) : ∃ levels f,
    fs = levels ++ f :: outer ∧ (∀ g ∈ levels, g.opener = none) ∧ f.opener = some i ∧
      (cascade = false → levels = []) := by
  induction h with
  | @own f hf => exact ⟨[], f, rfl, by simp, hf, fun _ => rfl⟩
  | @level f fs hc hf h ih =>
    obtain ⟨levels, g, rfl, hlevels, hg, -⟩ := ih
    exact ⟨f :: levels, g, rfl, by simpa [hf] using hlevels, hg, by simp [hc]⟩

end Fork.Stacked

/-- A phrase that is tested in the block of its clause. -/
def Instruction.IsTested (i : Instruction) : Prop := i.tag.closes = false ∧ i.tag.isListed = true

namespace Scope

variable {s₀ s : Scope} {is js : List Instruction} {b t : BlockId} {f : Fork}
  {fs outer : List Fork} {i : Instruction} {o : Options} {cascade : Bool}

theorem Proceeds.editGraph (h : s₀.Proceeds s is fs) {α : Type} {e : Graph.Edit α}
    (he : Ensures e s.graph fun _ g => s.graph.Same g) :
    Ensures (Build.editGraph e) s fun _ s' => s₀.Proceeds s' is fs := by
  obtain ⟨b, h, hb⟩ := h
  exact (h.editGraph he).mono fun _ _ h' => ⟨b, h'.1, hb.same h'.2⟩

/-! ### Rooms -/

namespace Wrote

theorem markRoom (h : s₀.Wrote s is b fs) (ht : s₀.Room s t) {m : BlockFlags}
    (hm : m.ending = false) : Ensures (Build.editGraph (Graph.markBlock t m)) s fun _ s' =>
      s₀.Wrote s' is b fs ∧ (∀ c, s₀.Room s c → s₀.Room s' c) ∧
        (m.default = true → (s'.graph.chart t).flags.default = true) := by
  refine (Build.editGraph_ensures (Graph.markBlock_ensures t m)).mono ?_
  rintro _ s' ⟨hdesk, -, hinks⟩
  have h' := h.ink hinks hdesk ht.may (ht.lt.trans_le hinks.size_le) ht.writable (.nil hm)
  rw [List.append_nil] at h'
  refine ⟨h', fun c hc => hc.of_nodes hinks.size_le (by simp [hinks.nodes]), fun hdefault => ?_⟩
  simp [hinks.flags, BlockFlags.union, hdefault]

/-- Tested phrases are put into a block with room. -/
theorem appendAll (h : s₀.Wrote s is b fs) (ht : s₀.Room s t) (hjs : ∀ i ∈ js, i.IsTested) :
    Ensures (ForIn.forIn js PUnit.unit fun i _ => do
        Build.editGraph (Graph.appendInstruction t i)
        pure (ForInStep.yield PUnit.unit) : Build PUnit) s fun _ s' =>
      s₀.Wrote s' (is ++ js) b fs ∧ ∀ c, s₀.Room s c → s₀.Room s' c := by
  induction js generalizing s is with
  | nil => exact .pure ⟨by simpa using h, fun _ hc => hc⟩
  | cons i rest ih =>
    obtain ⟨hcloses, hlisted⟩ := hjs i (by simp)
    rw [List.forIn_cons, bind_assoc]
    refine .bind (Build.editGraph_ensures (Graph.appendInstruction_ensures t i)) ?_
    rintro _ s₁ ⟨hdesk, -, hinks⟩
    have hneat : Spot.Neat [i] .none :=
      .single hlisted (by simp [BlockFlags.none, NodeTag.leaves_eq_false hcloses])
    have h₁ := h.ink hinks hdesk ht.may (ht.lt.trans_le hinks.size_le) ht.writable hneat
    have hrooms₁ : ∀ c, s₀.Room s c → s₀.Room s₁ c := fun c hc => by
      refine ⟨hc.may, hc.lt.trans_le hinks.size_le, fun j hj => ?_⟩
      rw [hinks.nodes] at hj
      split at hj
      · obtain hj | hj := List.mem_append.1 hj
        · exact hc.writable j hj
        · exact List.mem_singleton.1 hj ▸ hcloses
      · exact hc.writable j hj
    refine (ih h₁ (hrooms₁ t ht) fun j hj => hjs j (by simp [hj])).mono ?_
    rintro _ s₂ ⟨h₂, hrooms₂⟩
    exact ⟨by simpa using h₂, fun c hc => hrooms₂ c (hrooms₁ c hc)⟩

/-- A default block is noted for phrases that are put into none. -/
theorem noteAll (h : s₀.Wrote s is b fs) (ht : s₀.Room s t)
    (hdefault : (s.graph.chart t).flags.default = true)
    (hjs : ∀ i ∈ js, i.tag.isListed = false) :
    Ensures (ForIn.forIn js PUnit.unit fun i _ => do
        Build.editGraph (Graph.setBlockFor i.node t)
        pure (ForInStep.yield PUnit.unit) : Build PUnit) s fun _ s' =>
      s₀.Wrote s' (is ++ js) b fs ∧ s₀.Room s' t := by
  induction js generalizing s is with
  | nil => exact .pure (by simpa using ⟨h, ht⟩)
  | cons i rest ih =>
    rw [List.forIn_cons, bind_assoc]
    refine .bind (Build.editGraph_ensures (Graph.setBlockFor_ensures i.node t)) ?_
    rintro _ s₁ ⟨hdesk, hgraph⟩
    have hchart : s₁.graph.chart = s.graph.chart := by rw [hgraph]; exact Graph.chart_congr rfl rfl
    have hsize : s₁.graph.size = s.graph.size := by rw [hgraph]; rfl
    have h₁ : s₀.Wrote s₁ (is ++ [i]) b fs := by
      simp only [desk, Prod.mk.injEq] at hdesk
      obtain ⟨hstage, hhere, hforks, hpending⟩ := hdesk
      refine ⟨fun l hl => ?_, fun hs => ?_, hstage.trans h.stage, hhere.trans h.here, h.may,
        hsize ▸ h.lt, hforks.trans h.forks, hsize ▸ h.size_le, hchart ▸ h.spares⟩
      · obtain ⟨e, rfl, hlogs⟩ := h.logs l hl
        refine ⟨e ++ Log.entries t [i], by simp, ?_⟩
        rw [← List.append_assoc]
        have hi : ∀ j ∈ [i], j.tag.isListed = false := by simpa using hjs i (by simp)
        exact hlogs.note ht.lt hdefault hi hgraph
      · exact (h.signed hs).of_nodes (awaiting_congr hpending (by rw [hgraph]))
          fun c _ => by rw [hchart]
    simpa using ih h₁ (ht.of_nodes hsize.ge (by rw [hchart])) (by rw [hchart, hdefault])
      fun j hj => hjs j (by simp [hj])

/-! ### Statements without parts -/

theorem addPlain (h : s₀.Wrote s is b fs) (hb : s₀.Room s b) (hi : i.IsTested) :
    Ensures (Build.addInstruction i) s fun _ s' => s₀.Proceeds s' (is ++ [i]) fs :=
  (h.addInstruction hb hi.2 (NodeTag.leaves_eq_false hi.1)).mono fun _ _ h' =>
    ⟨b, h'.1, h'.2 hi.1⟩

theorem enterAlter (h : s₀.Wrote s is b fs) (hb : s₀.Room s b) (hi : i.IsTested) (span : Span)
    (clauses : List AlterClause) : Ensures (Build.enterAlter i span clauses) s fun _ s' =>
      s₀.Proceeds s' (is ++ [i]) fs := by
  refine .bind (h.addPlain hb hi) ?_
  rintro _ s₁ ⟨c, h₁, hc⟩
  exact .modify ⟨c, h₁.await rfl rfl rfl rfl fun _ hc => .inl hc, hc.may, hc.lt, hc.writable⟩

theorem enterEnding (h : s₀.Wrote s is b fs) (hb : s₀.Room s b) (hlisted : i.tag.isListed = true)
    (hleaves : i.tag.leaves = true) : Ensures (Build.enterEnding i) s fun _ s' =>
      s₀.Proceeds s' (is ++ [i]) fs := by
  exact .bind_bind (h.addEnding hb hlisted hleaves) fun _ _ h₁ =>
    .bind h₁.1.breakBlock fun _ _ h₂ => .pure h₂

/-- A block in which a transfer of control comes last. -/
theorem transfers_of_nodes {l : List Instruction} {s : Spot} (h : s.nodes = l ++ [i])
    (hi : i.tag.transfers = true) : s.Transfers :=
  ⟨i, by simp [h], hi⟩

theorem enterNextSentence (h : s₀.Wrote s is b fs) (hb : s₀.Room s b)
    (hi : i.tag = .nextSentence) : Ensures (Build.enterNextSentence i) s fun _ s' =>
      s₀.Proceeds s' (is ++ [i]) fs := by
  refine Build.current?_ensures h.here ?_
  refine .bind_bind (h.addEnding hb (by simp [hi, NodeTag.isListed])
    (by simp [hi, NodeTag.leaves])) ?_
  rintro _ s₁ ⟨h₁, l, hl⟩
  refine .get_bind ?_
  split
  · next sentence _ =>
    have htransfers := transfers_of_nodes hl (by simp [hi, NodeTag.transfers])
    refine .modify_bind (.bind (P := fun _ s' => s₀.Proceeds s' (is ++ [i]) fs)
      (breakBlock (b := b) ?_) fun _ _ h₂ => .pure h₂)
    refine h₁.await rfl rfl rfl rfl fun c hc => ?_
    simp only [awaiting, List.map_append, List.map_cons, List.map_nil, List.mem_append,
      List.mem_singleton] at hc ⊢
    obtain (hc | hc | rfl) | hc := hc
    · exact .inl (.inl (.inl hc))
    · exact .inl (.inl (.inr hc))
    · exact .inr htransfers
    · exact .inl (.inr hc)
  · exact .bind h₁.breakBlock fun _ _ h₂ => .pure h₂

/-- A jump is put aside before it is written. -/
theorem writeJump {s₁ s₂ : Scope} (h : s₀.Wrote s is b fs) (hb : s₀.Room s b) {node : NodeId}
    {span : Span} {jump : Jump} {m : BlockFlags}
    (hs₁ : s₁ = { s with pending := { s.pending with
      jumps := s.pending.jumps ++ [{ node, span, jump, block := b }] } })
    (hdesk : s₂.desk = s₁.desk) (hinks : s₁.graph.Inks s₂.graph b [i] m)
    (hi : i.tag.transfers = true) (hneat : Spot.Neat [i] m) :
    s₀.Wrote s₂ (is ++ [i]) b fs := by
  subst hs₁
  simp only [desk, Prod.mk.injEq] at hdesk
  obtain ⟨hstage, hhere, hforks, hpending⟩ := hdesk
  have hdesk' : desk { s₂ with pending := s.pending } = s.desk := by
    simp only [desk, Prod.mk.injEq, and_true]
    exact ⟨hstage, hhere, hforks⟩
  have h₂ : s₀.Wrote { s₂ with pending := s.pending } (is ++ [i]) b fs :=
    h.ink hinks hdesk' hb.may (hb.lt.trans_le hinks.size_le) hb.writable hneat
  refine h₂.await rfl rfl rfl rfl fun c hc => ?_
  have htransfers : (s₂.graph.chart b).Transfers :=
    transfers_of_nodes (by rw [hinks.nodes, if_pos rfl]) hi
  simp only [awaiting, hpending, List.map_append, List.map_cons, List.map_nil, List.mem_append,
    List.mem_singleton] at hc ⊢
  obtain ((hc | rfl) | hc) | hc := hc
  · exact .inl (.inl (.inl hc))
  · exact .inr htransfers
  · exact .inl (.inl (.inr hc))
  · exact .inl (.inr hc)

theorem enterJump (h : s₀.Wrote s is b fs) (hb : s₀.Room s b) (span : Span) {jump : Jump}
    (hi : i.tag = (NodeKind.goTo jump).tag) : Ensures (Build.enterJump i span jump) s fun _ s' =>
      s₀.Proceeds s' (is ++ [i]) fs := by
  rw [NodeKind.tag_goTo] at hi
  refine Build.current?_ensures h.here (.modify_bind ?_)
  cases hjump : jump.isSimple with
  | true =>
    rw [hjump] at hi
    refine .bind_bind (Build.addEnding_ensures (by exact h.here) i) ?_
    rintro _ s₁ ⟨hdesk, hinks⟩
    have h₁ := h.writeJump hb rfl hdesk hinks (by simp [hi, NodeTag.transfers])
      (.single (by simp [hi, NodeTag.isListed]) (by simp [hi, NodeTag.leaves]))
    exact .bind h₁.breakBlock fun _ _ h₂ => .pure h₂
  | false =>
    rw [hjump] at hi
    refine .bind (Build.addInstruction_ensures (by exact h.here) i) ?_
    rintro _ s₁ ⟨hdesk, hinks⟩
    have h₁ := h.writeJump hb rfl hdesk hinks (by simp [hi, NodeTag.transfers])
      (.single (by simp [hi, NodeTag.isListed]) (by simp [hi, NodeTag.leaves, BlockFlags.none]))
    refine .bind h₁.breakBlock ?_
    rintro t s₂ h₂
    exact .bind (h₂.editGraph (Graph.addEdge_ensures b t)) fun _ _ h₃ => .pure h₃

/-- A new group waits, and nothing is written. -/
theorem addGroup_ensures {g : Graph} (c : BlockId) (node : NodeId) (range : String) :
    Ensures (Graph.addGroup c node range) g fun _ g' =>
      g.Same { g' with groups := g.groups } ∧
        g'.groups.toList.map (·.callSite) = g.groups.toList.map (·.callSite) ++ [c] := by
  refine .bind (P := fun _ g₁ => g₁ = { g with
    groups := g.groups.push { id := g.groups.size, callSite := c, node, range } })
    (.modifyGet rfl) ?_
  rintro j _ rfl
  refine .bind (P := fun _ g₁ => g.Same { g₁ with groups := g.groups } ∧
      g₁.groups.toList.map (·.callSite) = g.groups.toList.map (·.callSite) ++ [c]) ?_
    fun _ _ h => .pure h
  rintro ⟨⟩ g' hx
  have hsame := Graph.modifyBlock_ensures c (by intro; exact ⟨rfl, rfl⟩) _ _ hx
  refine ⟨⟨hsame.size_le, hsame.nodes, hsame.flags, hsame.owners, rfl⟩, ?_⟩
  rw [hsame.groups]
  simp

theorem enterPerform (h : s₀.Wrote s is b fs) (hi : i.tag = .perform) (span : Span)
    (range : PerformRange) : Ensures (Build.enterPerform i span range) s fun _ s' =>
      s₀.Proceeds s' (is ++ [i]) fs := by
  refine Build.current?_ensures h.here ?_
  have hl : ∀ j ∈ some i, j.tag.isListed = true ∧ j.tag.leaves = false := by
    rintro j ⟨⟩
    simp [hi, NodeTag.isListed, NodeTag.leaves]
  refine .bind (h.newBlock hl) ?_
  rintro t s₁ ⟨h₁, hnodes, -, -⟩
  have htransfers : (s₁.graph.chart t).Transfers :=
    transfers_of_nodes (l := []) hnodes (by simp [hi, NodeTag.transfers])
  refine .bind (Build.editGraph_ensures (addGroup_ensures t i.node range.display)) ?_
  rintro group s₂ ⟨hdesk, hsame, hgroups⟩
  -- the scope before the group waits
  have h₂ : s₀.Wrote { s₂ with graph := { s₂.graph with groups := s₁.graph.groups } } _ b fs :=
    h₁.of_desk hsame (by exact hdesk)
  have h₂ : s₀.Wrote s₂ (is ++ [i]) b fs := by
    refine h₂.await rfl rfl rfl rfl fun c hc => ?_
    have hpending : s₂.pending = s₁.pending := by
      simp only [desk, Prod.mk.injEq] at hdesk
      exact hdesk.2.2.2
    simp only [awaiting, hgroups, List.mem_append, List.mem_singleton] at hc ⊢
    obtain hc | hc | rfl := hc
    · exact .inl (.inl hc)
    · exact .inl (.inr hc)
    · rw [Spot.Transfers, hsame.nodes]
      exact .inr htransfers
  refine .bind (h₂.editGraph Graph.markCompound_ensures) ?_
  rintro _ s₃ ⟨h₃, -⟩
  refine .bind (h₃.editGraph (Graph.addEdge_ensures b t)) ?_
  rintro _ s₄ ⟨h₄, -⟩
  refine .bind h₄.breakBlock ?_
  rintro next s₅ h₅
  refine .bind (h₅.editGraph (Graph.addEdge_ensures t next)) ?_
  rintro _ s₆ ⟨c, h₆, hc⟩
  exact .modify ⟨c, h₆.await rfl rfl rfl rfl fun _ hc => .inl hc, hc.may, hc.lt, hc.writable⟩

/-! ### IF and exception phrases -/

theorem enterIf (h : s₀.Wrote s is b fs) (hb : s₀.Room s b) (hi : i.tag = .ifThen) :
    Ensures (Build.enterIf i) s fun _ s' => ∃ f, s₀.Proceeds s' (is ++ [i]) (f :: fs) := by
  refine Build.current?_ensures h.here (.bind (h.pushFork _) ?_)
  rintro _ s₁ ⟨h₁, hgraph⟩
  refine .bind (h₁.addInstruction (hb.of_nodes (by rw [hgraph]) (by rw [hgraph])) ?_ ?_) ?_
  · simp [hi, NodeTag.isListed]
  · simp [hi, NodeTag.leaves]
  rintro _ s₂ ⟨h₂, -⟩
  refine .bind h₂.newRoom ?_
  rintro t s₃ ⟨h₃, ht, -⟩
  refine (h₃.openBranch ht).mono ?_
  rintro _ _ ⟨hsame, slots, h₄⟩
  exact ⟨_, t, h₄, ht.same hsame⟩

/-- A further branch of the innermost fork, which may begin with a clause. -/
theorem enterElse (h : s₀.Wrote s is b (f :: fs)) {i : Option Instruction}
    (hi : ∀ j ∈ i, j.IsTested) : Ensures (Build.enterElse i) s fun _ s' =>
      ∃ f', s₀.Proceeds s' (is ++ i.toList) (f' :: fs) ∧ f'.opener = f.opener ∧
        f'.phrases = f.phrases := by
  refine .bind (h.newBlock fun j (hj : j ∈ i) =>
    ⟨(hi j hj).2, NodeTag.leaves_eq_false (hi j hj).1⟩) ?_
  rintro t s₁ ⟨h₁, hnodes, ⟨hmay, hlt⟩, -⟩
  have ht : s₀.Room s₁ t := ⟨hmay, hlt, fun j hj => by
    rw [hnodes] at hj
    exact (hi j (by simpa using hj)).1⟩
  exact (h₁.openBranch ht).mono fun _ _ ⟨hsame, slots, h₂⟩ =>
    ⟨_, ⟨t, h₂, ht.same hsame⟩, rfl, rfl⟩

/-- The innermost fork is closed. -/
theorem popJoin (h : s₀.Wrote s is b (f :: fs)) (onward : Fork → Bool) :
    Ensures (do
      if let some f ← Build.popFork? then
        Build.joinFork f (onward f)) s fun _ s' => s₀.Proceeds s' is fs := by
  refine .bind h.popFork? ?_
  rintro _ s₁ ⟨rfl, h₁⟩
  exact h₁.joinFork f _

/-- Outside of a SEARCH an exception phrase belongs to a verb. -/
theorem isSearchAtEnd_of_ne (hsearch : s.enclosing.head? ≠ some .search)
    (phrase : ExceptionPhrase) : Build.isSearchAtEnd phrase s = .ok (false, s) := by
  have hne : (s.enclosing.head? == some NodeTag.search) = false := by simpa using hsearch
  simp only [Build.isSearchAtEnd]
  rw [run_bind (a := s) (t := s) rfl, hne]
  cases phrase <;> rfl

theorem leaveException (h : s₀.Wrote s is b (f :: fs)) (hsearch : s.enclosing.head? ≠ some .search)
    (phrase : ExceptionPhrase) : Ensures (Build.leaveException phrase) s fun _ s' =>
      s₀.Proceeds s' is fs := by
  intro a s' hx
  rw [Build.leaveException, run_bind (isSearchAtEnd_of_ne hsearch phrase)] at hx
  exact h.popJoin (fun _ => true) a s' hx

theorem enterException (h : s₀.Wrote s is b fs) (hi : i.IsTested)
    (hsearch : s.enclosing.head? ≠ some .search)
    (phrase : ExceptionPhrase) : Ensures (Build.enterException o i phrase) s fun _ s' =>
      ∃ f, s₀.Proceeds s' (is ++ [i]) (f :: fs) := by
  intro a s' hx
  rw [Build.enterException, run_bind (isSearchAtEnd_of_ne hsearch phrase)] at hx
  revert a s'
  change Ensures _ s _
  refine Build.current?_ensures h.here (.bind (h.pushFork _) ?_)
  rintro _ s₁ ⟨h₁, -⟩
  refine .bind (h₁.newBlock ?_) ?_
  · rintro j ⟨⟩
    exact ⟨hi.2, NodeTag.leaves_eq_false hi.1⟩
  rintro t s₂ ⟨h₂, hnodes, ⟨hmay, hlt⟩, -⟩
  have ht : s₀.Room s₂ t := ⟨hmay, hlt, by simpa [Spot.Writable, hnodes] using hi.1⟩
  refine (h₂.openBranch ht).mono ?_
  rintro _ _ ⟨hsame, slots, h₃⟩
  exact ⟨_, t, h₃, ht.same hsame⟩

/-! ### Phrases and levels -/

theorem addAll (h : s₀.Wrote s is b fs) (hb : s₀.Room s b) (hjs : ∀ i ∈ js, i.IsTested) :
    Ensures (ForIn.forIn js PUnit.unit fun i _ => do
        Build.addInstruction i
        pure (ForInStep.yield PUnit.unit) : Build PUnit) s fun _ s' =>
      s₀.Wrote s' (is ++ js) b fs ∧ s₀.Room s' b := by
  induction js generalizing s is with
  | nil => exact .pure (by simpa using ⟨h, hb⟩)
  | cons i rest ih =>
    obtain ⟨hcloses, hlisted⟩ := hjs i (by simp)
    rw [List.forIn_cons, bind_assoc]
    refine .bind (h.addInstruction hb hlisted (NodeTag.leaves_eq_false hcloses)) ?_
    rintro _ s₁ ⟨h₁, hb₁⟩
    simpa using ih h₁ (hb₁ hcloses) fun j hj => hjs j (by simp [hj])

/-- A further level of a cascade: the waiting phrases are tested in the current block. -/
theorem pushLevel (h : s₀.Wrote s is b (f :: fs)) (hb : s₀.Room s b)
    (hphrases : ∀ i ∈ f.phrases, i.IsTested) : Ensures Build.pushLevel s fun _ s' =>
      ∃ level, s₀.Proceeds s' (is ++ f.phrases) (level :: { f with phrases := [] } :: fs) ∧
        level.opener = none ∧ level.phrases = [] := by
  refine Build.current?_ensures h.here (.get_bind (.bind (h.pushFork _) ?_))
  rintro _ s₁ ⟨h₁, hgraph₁⟩
  refine .bind h₁.takePhrases_one ?_
  rintro _ s₂ ⟨rfl, h₂, hgraph₂⟩
  have hsame : s₂.graph = s.graph := hgraph₂.trans hgraph₁
  refine .bind (h₂.addAll (hb.of_nodes (by rw [hsame]) (by rw [hsame])) hphrases) ?_
  rintro _ s₃ ⟨h₃, -⟩
  refine .bind h₃.newRoom ?_
  rintro t s₄ ⟨h₄, ht, -⟩
  exact (h₄.openBranch ht).mono fun _ _ ⟨hsame, slots, h₅⟩ =>
    ⟨_, ⟨t, h₅, ht.same hsame⟩, rfl, rfl⟩

/-- A branch is opened in a block that begins with the waiting phrases. -/
theorem openPhraseBranch (h : s₀.Wrote s is b (f :: fs)) {m : BlockFlags} (hm : m.ending = false)
    (hphrases : ∀ i ∈ f.phrases, i.IsTested) : Ensures (Build.openPhraseBranch m) s fun _ s' =>
      ∃ f' c, s₀.Wrote s' (is ++ f.phrases) c (f' :: fs) ∧ s₀.Room s' c ∧
        f'.opener = f.opener ∧ f'.phrases = [] ∧ f'.origin = f.origin ∧
        ∀ t, s₀.Room s t → s₀.Room s' t ∧ t ≠ c := by
  refine .bind h.takePhrases_zero ?_
  rintro _ s₁ ⟨rfl, h₁, hgraph₁⟩
  refine .bind h₁.newRoom ?_
  rintro t s₂ ⟨h₂, ht, hrooms₂⟩
  refine .bind (h₂.markRoom ht hm) ?_
  rintro _ s₃ ⟨h₃, hrooms₃, -⟩
  refine .bind (h₃.appendAll (hrooms₃ t ht) hphrases) ?_
  rintro _ s₄ ⟨h₄, hrooms₄⟩
  have ht₄ := hrooms₄ t (hrooms₃ t ht)
  refine (h₄.openBranch ht₄).mono ?_
  rintro _ s₅ ⟨hsame, slots, h₅⟩
  refine ⟨_, t, h₅, ht₄.same hsame, rfl, rfl, rfl, fun c hc => ?_⟩
  obtain ⟨hc₂, hne⟩ := hrooms₂ c (hc.of_nodes (by rw [hgraph₁]) (by rw [hgraph₁]))
  exact ⟨(hrooms₄ c (hrooms₃ c hc₂)).same hsame, hne⟩

theorem enterEvaluate (h : s₀.Wrote s is b fs) (hb : s₀.Room s b) (hi : i.IsTested) :
    Ensures (Build.enterEvaluate i) s fun _ s' => ∃ f, s₀.Proceeds s' (is ++ [i]) (f :: fs) ∧
      f.opener = some i ∧ f.phrases = [] := by
  refine Build.current?_ensures h.here (.bind (h.pushFork _) ?_)
  rintro _ s₁ ⟨h₁, hgraph⟩
  have hb₁ : s₀.Room s₁ b := hb.of_nodes (by rw [hgraph]) (by rw [hgraph])
  exact (h₁.addPlain hb₁ hi).mono fun _ _ h₂ => ⟨_, h₂, rfl, rfl⟩

/-- All phrases of a clause of an EVALUATE have been entered. -/
theorem startWhen (h : s₀.Wrote s is b fs) (hb : s₀.Room s b)
    (hfs : Fork.Stacked o.evaluateCascade i outer fs)
    (hphrases : ∀ i ∈ Fork.waiting fs, i.IsTested) :
    Ensures (Build.startWhen o) s fun _ s' => ∃ fs', s₀.Proceeds s' (is ++ Fork.waiting fs) fs' ∧
      Fork.Stacked o.evaluateCascade i outer fs' ∧ Fork.waiting fs' = [] := by
  obtain ⟨f, rest, rfl⟩ := hfs.exists_cons
  rw [Fork.waiting_cons] at hphrases ⊢
  refine .get_bind ?_
  rw [h.forks]
  dsimp only [List.head?_cons]
  split
  · next hcascade =>
    have hlevel : ∀ s₁ c f₁, s₀.Wrote s₁ is c (f₁ :: rest) → s₀.Room s₁ c →
        f₁.opener = f.opener → f₁.phrases = f.phrases → Ensures Build.pushLevel s₁ fun _ s' =>
          ∃ fs', s₀.Proceeds s' (is ++ f.phrases) fs' ∧
            Fork.Stacked o.evaluateCascade i outer fs' ∧ Fork.waiting fs' = [] := by
      intro s₁ c f₁ h₁ hc hopener hsame
      refine (h₁.pushLevel hc (by rwa [hsame])).mono ?_
      rintro _ s₂ ⟨level, h₂, hnone, hempty⟩
      rw [hsame] at h₂
      exact ⟨_, h₂, .level hcascade hnone (hfs.congr hopener), hempty⟩
    split
    · exact hlevel s b f h hb rfl rfl
    · refine .bind (h.enterElse (i := none) (by simp)) ?_
      rintro _ s₁ ⟨f₁, ⟨c, h₁, hc⟩, hopener, hsame⟩
      exact hlevel s₁ c f₁ (by simpa using h₁) hc hopener hsame
  · next hcascade =>
    refine (h.openPhraseBranch rfl hphrases).mono ?_
    rintro _ s₁ ⟨f', c, h₁, hc, hopener, hempty, -, -⟩
    exact ⟨_, ⟨c, h₁, hc⟩, hfs.congr hopener, hempty⟩

/-- The WHEN OTHER phrase of an EVALUATE has been entered. -/
theorem startWhenOther (h : s₀.Wrote s is b fs) (hfs : Fork.Stacked cascade i outer fs)
    (hphrases : ∀ i ∈ Fork.waiting fs, i.tag = .whenOther) :
    Ensures Build.startWhenOther s fun _ s' => ∃ fs', s₀.Proceeds s' (is ++ Fork.waiting fs) fs' ∧
      Fork.Stacked cascade i outer fs' ∧ Fork.waiting fs' = [] := by
  obtain ⟨f, rest, rfl⟩ := hfs.exists_cons
  rw [Fork.waiting_cons] at hphrases ⊢
  refine .get_bind ?_
  simp only [h.forks, List.isEmpty_cons]
  refine .bind h.takePhrases_zero ?_
  rintro _ s₁ ⟨rfl, h₁, -⟩
  refine .bind h₁.newRoom ?_
  rintro t s₂ ⟨h₂, ht, -⟩
  refine .bind (h₂.markRoom ht (m := { default := true }) rfl) ?_
  rintro _ s₃ ⟨h₃, hrooms, hdefault⟩
  refine .bind (h₃.noteAll (hrooms t ht) (hdefault rfl) fun i hi => ?_) ?_
  · simp [hphrases i hi, NodeTag.isListed]
  rintro _ s₄ ⟨h₄, ht₄⟩
  refine (h₄.openBranch ht₄).mono ?_
  rintro _ s₅ ⟨hsame, slots, h₅⟩
  exact ⟨_, ⟨t, h₅, ht₄.same hsame⟩, hfs.congr rfl, rfl⟩

/-! ### The ends of EVALUATE and SEARCH -/

/-- Levels are joined, innermost first. -/
theorem joinLevels (h : s₀.Proceeds s is fs) (levels : List Fork) :
    Ensures (ForIn.forIn levels PUnit.unit fun level _ => do
        Build.joinFork level (level.branches.length == 1)
        pure (ForInStep.yield PUnit.unit) : Build PUnit) s fun _ s' => s₀.Proceeds s' is fs := by
  refine .forIn h fun level _ _ s₁ ⟨c, h₁, _⟩ => ?_
  exact .bind (h₁.joinFork level _) fun _ _ h₂ => .pure h₂

/-- The fork of the statement and its levels are taken off the stack. -/
theorem popCascade (h : s₀.Wrote s is b fs) (hfs : Fork.Stacked cascade i outer fs) :
    Ensures Build.popCascade s fun r s' => (∃ f, r.2 = some f) ∧ s₀.Wrote s' is b outer ∧
      s'.graph = s.graph := by
  obtain ⟨levels, f, rfl, hlevels, hf, -⟩ := hfs.exists_levels
  have hnot : f.isLevel = false := by simp [Fork.isLevel, hf]
  have hdrop : (levels ++ f :: outer).dropWhile (·.isLevel) = f :: outer := by
    rw [List.dropWhile_append_of_pos fun g hg => by simp [Fork.isLevel, hlevels g hg]]
    simp [hnot]
  refine .get_bind (.set_bind (.bind ?_ fun r s₁ h₁ => .pure h₁))
  rw [h.forks, hdrop]
  refine .get_bind ?_
  exact .modify_bind (.pure ⟨⟨f, rfl⟩, h.same (.refl _) rfl rfl rfl rfl, rfl⟩)

theorem leaveEvaluate (h : s₀.Wrote s is b fs) (hb : s₀.Room s b)
    (hfs : Fork.Stacked o.evaluateCascade i outer fs) :
    Ensures (Build.leaveEvaluate o) s fun _ s' => s₀.Proceeds s' is outer := by
  cases hcascade : o.evaluateCascade with
  | true =>
    simp only [Build.leaveEvaluate, hcascade, if_true]
    refine .bind (h.popCascade hfs) ?_
    rintro ⟨levels, statement?⟩ s₁ ⟨⟨f, rfl⟩, h₁, hgraph⟩
    have hb₁ : s₀.Room s₁ b := hb.of_nodes (by rw [hgraph]) (by rw [hgraph])
    refine .bind (joinLevels ⟨b, h₁, hb₁⟩ levels) ?_
    rintro _ s₂ ⟨c, h₂, hc⟩
    dsimp only
    split
    · exact .pure ⟨c, h₂, hc⟩
    · exact .bind (isDefault _ (P := fun _ s => s₀.Proceeds s is outer) fun _ => ⟨c, h₂, hc⟩)
        fun _ s₃ ⟨d, h₃, _⟩ => h₃.joinFork f _
  | false =>
    rw [hcascade] at hfs
    obtain ⟨levels, f, rfl, -, -, hnil⟩ := hfs.exists_levels
    obtain rfl := hnil rfl
    simp only [Build.leaveEvaluate, hcascade]
    refine .bind h.popFork? ?_
    rintro _ s₁ ⟨rfl, h₁⟩
    exact .bind (isDefault _ (P := fun _ s => ∃ c, s₀.Wrote s is c outer) fun _ => ⟨b, h₁⟩)
      fun _ s₂ ⟨d, h₂⟩ => h₂.joinFork f _

/-- Levels of a SEARCH are joined, innermost first. -/
theorem closeSearchLevels (h : s₀.Proceeds s is fs) (levels : List Fork) :
    Ensures (Build.closeSearchLevels levels) s fun _ s' => s₀.Proceeds s' is fs := by
  cases levels with
  | nil => exact .pure h
  | cons last outer =>
    obtain ⟨b, h, -⟩ := h
    refine .bind h.newRoom ?_
    rintro t s₁ ⟨h₁, ht, -⟩
    refine .bind (h₁.editGraph (Fork.close_ensures false none t)) ?_
    rintro _ s₂ ⟨h₂, hsame₂⟩
    -- whether or not the last test leads back to the root, the join becomes current
    have hrest : ∀ s₃, s₀.Wrote s₃ is b fs → s₀.Room s₃ t → Ensures (do
        Build.setCurrent t
        for level in outer do
          Build.joinFork level (level.branches.length == 1)
        return (← get).currentBlock) s₃ fun _ s' => s₀.Proceeds s' is fs := by
      intro s₃ h₃ ht₃
      refine .bind (h₃.setCurrent ht₃) fun _ s₄ h₄ => ?_
      exact .bind (joinLevels h₄ outer) fun _ s₅ h₅ => .get_bind (.pure h₅)
    dsimp only
    split
    · next _ origin root _ =>
      have hslot : ∀ k s₃, s₀.Wrote s₃ is b fs → s₂.graph.Same s₃.graph →
          Ensures (Build.editGraph (Graph.link origin k)) s₃ fun _ s' =>
            s₀.Wrote s' is b fs ∧ s₂.graph.Same s'.graph := by
        intro k s₃ h₃ hsame₃
        exact (h₃.editGraph (Graph.link_ensures origin k)).mono fun _ _ h₄ =>
          ⟨h₄.1, hsame₃.trans h₄.2⟩
      split
      · next k _ =>
        refine .pure_bind (.bind (hslot k s₂ h₂ (.refl _)) ?_)
        rintro _ s₃ ⟨h₃, hsame₃⟩
        exact hrest s₃ h₃ (ht.same (hsame₂.trans hsame₃))
      · refine .bind (h₂.editGraph (Graph.newSlot_ensures root)) ?_
        rintro k s₃ ⟨h₃, hsame₃⟩
        refine .bind (hslot k s₃ h₃ hsame₃) ?_
        rintro _ s₄ ⟨h₄, hsame₄⟩
        exact hrest s₄ h₄ (ht.same (hsame₂.trans hsame₄))
    · exact hrest s₂ h₂ (ht.same hsame₂)

theorem leaveSearch (h : s₀.Wrote s is b fs) (hb : s₀.Room s b)
    (hfs : Fork.Stacked o.searchCascade i outer fs) :
    Ensures (Build.leaveSearch o) s fun _ s' => s₀.Proceeds s' is outer := by
  cases hcascade : o.searchCascade with
  | true =>
    simp only [Build.leaveSearch, hcascade, if_true]
    refine .bind (h.popCascade hfs) ?_
    rintro ⟨levels, statement?⟩ s₁ ⟨⟨f, rfl⟩, h₁, hgraph⟩
    have hb₁ : s₀.Room s₁ b := hb.of_nodes (by rw [hgraph]) (by rw [hgraph])
    refine .bind (closeSearchLevels ⟨b, h₁, hb₁⟩ levels) ?_
    rintro continuation s₂ h₂
    have hclose : ∀ stop next s₃, s₀.Proceeds s₃ is outer →
        Ensures (Build.editGraph (f.close f.branches.isEmpty stop next)) s₃
          fun _ s' => s₀.Proceeds s' is outer :=
      fun _ next _ h₃ => h₃.editGraph (Fork.close_ensures _ _ next)
    dsimp only
    split
    · split <;> exact hclose _ _ s₂ h₂
    · obtain ⟨c, h₂, -⟩ := h₂
      refine .bind h₂.breakBlock fun c s₃ h₃ => ?_
      split <;> exact hclose _ c s₃ h₃
  | false =>
    rw [hcascade] at hfs
    obtain ⟨levels, f, rfl, -, -, hnil⟩ := hfs.exists_levels
    obtain rfl := hnil rfl
    simp only [Build.leaveSearch, hcascade]
    refine .bind h.popFork? ?_
    rintro _ s₁ ⟨rfl, h₁⟩
    exact .bind (isDefault _ (P := fun _ s => ∃ c, s₀.Wrote s is c outer) fun _ => ⟨b, h₁⟩)
      fun _ s₂ ⟨d, h₂⟩ => h₂.joinFork f _

/-! ### The beginnings of SEARCH -/

end Wrote

/-- A SEARCH in a cascade that has not tested anything has room in the block of its first test. -/
def Reserves (s₀ s : Scope) (cascade : Bool) (fs : List Fork) : Prop :=
  cascade = true → ∀ f ∈ fs.head?, f.opener.isSome → ∀ c ∈ f.origin, s₀.Room s c

namespace Wrote

theorem enterSearch (h : s₀.Wrote s is b fs) (hb : s₀.Room s b) (hi : i.tag = .search) :
    Ensures (Build.enterSearch o i) s fun _ s' => ∃ f, s₀.Proceeds s' (is ++ [i]) (f :: fs) ∧
      f.opener = some i ∧ f.phrases = [] ∧ s₀.Reserves s' o.searchCascade (f :: fs) := by
  have htested : i.IsTested := by simp [Instruction.IsTested, hi, NodeTag.closes, NodeTag.isListed]
  have hleaves := NodeTag.leaves_eq_false htested.1
  refine Build.current?_ensures h.here ?_
  cases hcascade : o.searchCascade with
  | true =>
    -- the body of the search, below its root
    have hbody : ∀ root rootSlot s₁, s₀.Proceeds s₁ (is ++ [i]) fs → Ensures (do
        let body ← Build.newBlock none
        let _ ← Build.editGraph (Graph.addEdge root body)
        Build.pushFork { Fork.openedBy i body with root := some root, rootSlot := rootSlot }
        Build.setCurrent body) s₁ fun _ s' => ∃ f, s₀.Proceeds s' (is ++ [i]) (f :: fs) ∧
          f.opener = some i ∧ f.phrases = [] ∧ s₀.Reserves s' true (f :: fs) := by
      rintro root rootSlot s₁ ⟨c, h₁, -⟩
      refine .bind h₁.newRoom ?_
      rintro body s₂ ⟨h₂, hbody, -⟩
      refine .bind (h₂.editGraph (Graph.addEdge_ensures root body)) ?_
      rintro _ s₃ ⟨h₃, hsame⟩
      refine .bind (h₃.pushFork _) ?_
      rintro _ s₄ ⟨h₄, hgraph⟩
      have ht : s₀.Room s₄ body :=
        (hbody.same hsame).of_nodes (by rw [hgraph]) (by rw [hgraph])
      have hroom : ∀ s₅ : Scope, s₅.graph = s₄.graph → s₀.Room s₅ body := fun s₅ hs₅ =>
        ht.of_nodes (by rw [hs₅]) (by rw [hs₅])
      refine .modify ⟨_, ⟨body, h₄.goTo ht rfl rfl rfl h₄.forks rfl, hroom _ rfl⟩, rfl, rfl, ?_⟩
      rintro - f hf - d hd
      obtain rfl := Option.some.inj hf
      obtain rfl := Option.some.inj hd
      exact hroom _ rfl
    simp only [if_true]
    refine .get_bind (.lift_bind fun here _ => ?_)
    split
    · refine .bind (h.addPlain hb htested) ?_
      rintro _ s₁ h₁
      exact .pure_bind (hbody b none s₁ h₁)
    · have hl : ∀ j ∈ some i, j.tag.isListed = true ∧ j.tag.leaves = false := by
        rintro j ⟨⟩
        exact ⟨htested.2, hleaves⟩
      refine .bind (h.newBlock hl) ?_
      rintro root s₁ ⟨h₁, -, -, hrooms⟩
      refine .bind (h₁.editGraph (Graph.addEdge_ensures b root)) ?_
      rintro slot s₂ ⟨h₂, hsame⟩
      exact .pure_bind (hbody root (some slot) s₂ ⟨b, h₂, (hrooms b hb).1.same hsame⟩)
  | false =>
    simp only [Bool.false_eq_true, if_false]
    refine .bind (h.pushFork _) ?_
    rintro _ s₁ ⟨h₁, hgraph⟩
    refine (h₁.addPlain (hb.of_nodes (by rw [hgraph]) (by rw [hgraph])) htested).mono ?_
    intro _ s₂ h₂
    exact ⟨_, h₂, rfl, rfl, fun hfalse => by cases hfalse⟩

/-- All phrases of a WHEN clause of a SEARCH have been entered. No block needs to be reserved any
more. -/
theorem startSearchWhen (h : s₀.Wrote s is b fs) (hb : s₀.Room s b)
    (hfs : Fork.Stacked o.searchCascade i outer fs)
    (hreserves : s₀.Reserves s o.searchCascade fs)
    (hphrases : ∀ i ∈ Fork.waiting fs, i.IsTested) :
    Ensures (Build.startSearchWhen o false) s fun _ s' => ∃ fs',
      s₀.Proceeds s' (is ++ Fork.waiting fs) fs' ∧ Fork.Stacked o.searchCascade i outer fs' ∧
        Fork.waiting fs' = [] ∧ ∀ t, s₀.Reserves t o.searchCascade fs' := by
  obtain ⟨f, rest, rfl⟩ := hfs.exists_cons
  rw [Fork.waiting_cons] at hphrases ⊢
  refine .get_bind ?_
  rw [h.forks]
  dsimp only [List.head?_cons]
  cases hcascade : o.searchCascade with
  | true =>
    rw [hcascade] at hfs hreserves
    have hlevel : ∀ s₁ c f₁, s₀.Wrote s₁ is c (f₁ :: rest) → s₀.Room s₁ c →
        f₁.opener = f.opener → f₁.phrases = f.phrases → Ensures Build.pushLevel s₁ fun _ s' =>
          ∃ fs', s₀.Proceeds s' (is ++ f.phrases) fs' ∧ Fork.Stacked true i outer fs' ∧
            Fork.waiting fs' = [] ∧ ∀ t, s₀.Reserves t true fs' := by
      intro s₁ c f₁ h₁ hc hopener hsame
      refine (h₁.pushLevel hc (by rwa [hsame])).mono ?_
      rintro _ s₂ ⟨level, h₂, hnone, hempty⟩
      rw [hsame] at h₂
      refine ⟨_, h₂, .level rfl hnone (hfs.congr hopener), hempty, fun _ _ g hg hsome => ?_⟩
      obtain rfl := Option.some.inj hg
      rw [hnone] at hsome
      exact nomatch hsome
    simp only [Bool.not_true, Bool.or_false, Bool.false_eq_true, if_false]
    split
    · next hsearch =>
      have hopener : f.opener.isSome := by
        cases hf : f.opener with
        | none => simp [Fork.isSearch, hf] at hsearch
        | some j => rfl
      split
      · split
        · next origin horigin =>
          have hroom := hreserves rfl f rfl hopener origin horigin
          refine .bind (h.setCurrent hroom) ?_
          rintro _ s₁ ⟨c, h₁, hc⟩
          exact hlevel s₁ c f h₁ hc rfl rfl
        · exact hlevel s b f h hb rfl rfl
      · exact hlevel s b f h hb rfl rfl
    · refine .bind (h.enterElse (i := none) (by simp)) ?_
      rintro _ s₁ ⟨f₁, ⟨c, h₁, hc⟩, hopener, hsame⟩
      exact hlevel s₁ c f₁ (by simpa using h₁) hc hopener hsame
  | false =>
    rw [hcascade] at hfs
    simp only [Bool.not_false, Bool.or_true, if_true]
    refine (h.openPhraseBranch rfl hphrases).mono ?_
    rintro _ s₁ ⟨f', c, h₁, hc, hopener, hempty, -, -⟩
    exact ⟨_, ⟨c, h₁, hc⟩, hfs.congr hopener, hempty, fun _ hfalse => nomatch hfalse⟩

theorem isSearchAtEnd_of_isSearch (h : s₀.Wrote s is b (f :: fs))
    (hsearch : s.enclosing.head? = some .search) (hf : f.isSearch = true) :
    Build.isSearchAtEnd .atEnd s = .ok (true, s) := by
  simp only [Build.isSearchAtEnd]
  rw [run_bind (a := s) (t := s) rfl, hsearch, h.forks, List.head?_cons, Option.any_some, hf]
  rfl

/-- The AT END phrase of a SEARCH has been entered. Its statements do not go where the first test
goes. -/
theorem enterAtEnd (h : s₀.Wrote s is b (f :: fs)) (hi : i.IsTested)
    (hsearch : s.enclosing.head? = some .search) (hf : f.isSearch = true) (hnil : f.phrases = []) :
    Ensures (Build.enterException o i .atEnd) s fun _ s' => ∃ f' c,
      s₀.Wrote s' (is ++ [i]) c (f' :: fs) ∧ s₀.Room s' c ∧ f'.opener = f.opener ∧
        f'.phrases = [] ∧ f'.origin = f.origin ∧ ∀ t, s₀.Room s t → s₀.Room s' t ∧ t ≠ c := by
  intro a s' hx
  rw [Build.enterException, run_bind (h.isSearchAtEnd_of_isSearch hsearch hf)] at hx
  revert a s'
  change Ensures _ s _
  refine .bind (h.deferPhrase i) ?_
  rintro _ s₁ ⟨h₁, hgraph⟩
  refine .get_bind ?_
  rw [h₁.forks]
  simp only [List.head?_cons, Bool.true_or, if_true]
  refine (h₁.openPhraseBranch rfl (by simpa [hnil] using hi)).mono ?_
  rintro _ s₂ ⟨f', c, h₂, hc, hopener, hempty, horigin, hrooms⟩
  refine ⟨f', c, by simpa [hnil] using h₂, hc, hopener, hempty, horigin, fun t ht => ?_⟩
  exact hrooms t (ht.of_nodes (by rw [hgraph]) (by rw [hgraph]))

/-! ### In-line PERFORM -/

theorem enterLoop (h : s₀.Wrote s is b fs) (hi : i.IsTested) (testAfter : Bool) :
    Ensures (Build.enterLoop i testAfter) s fun _ s' => ∃ f, s₀.Proceeds s' (is ++ [i]) (f :: fs) ∧
      (∃ test body, f.branches = [test, body]) ∧ ∃ k k', f.branchSlots = [k, k'] := by
  refine Build.current?_ensures h.here ?_
  refine .bind (h.newBlock ?_) ?_
  · rintro j ⟨⟩
    exact ⟨hi.2, NodeTag.leaves_eq_false hi.1⟩
  rintro test s₁ ⟨h₁, -, -, -⟩
  refine .bind h₁.newRoom ?_
  rintro body s₂ ⟨h₂, hbody, -⟩
  -- whichever of the two slots is made first
  have hrest : ∀ testSlot bodySlot s₃, s₀.Wrote s₃ (is ++ [i]) b fs → s₀.Room s₃ body → Ensures (do
      let _ ← Build.editGraph (Graph.link test bodySlot)
      Build.pushFork (((Fork.openedBy i b).trackBranch test testSlot).trackBranch body bodySlot)
      Build.setCurrent body) s₃ fun _ s' => ∃ f, s₀.Proceeds s' (is ++ [i]) (f :: fs) ∧
        (∃ test body, f.branches = [test, body]) ∧ ∃ k k', f.branchSlots = [k, k'] := by
    intro testSlot bodySlot s₃ h₃ hbody₃
    refine .bind (h₃.editGraph (Graph.link_ensures test bodySlot)) ?_
    rintro _ s₄ ⟨h₄, hsame⟩
    refine .bind (h₄.pushFork _) ?_
    rintro _ s₅ ⟨h₅, hgraph⟩
    have hbody₅ : s₀.Room s₅ body :=
      (hbody₃.same hsame).of_nodes (by rw [hgraph]) (by rw [hgraph])
    exact (h₅.setCurrent hbody₅).mono fun _ _ h₆ => ⟨_, h₆, ⟨test, body, rfl⟩, _, _, rfl⟩
  cases testAfter with
  | true =>
    refine .bind (h₂.editGraph (Graph.addEdge_ensures b body)) ?_
    rintro bodySlot s₃ ⟨h₃, hsame₃⟩
    refine .bind (h₃.editGraph (Graph.newSlot_ensures test)) ?_
    rintro testSlot s₄ ⟨h₄, hsame₄⟩
    exact .pure_bind (hrest testSlot bodySlot s₄ h₄ (hbody.same (hsame₃.trans hsame₄)))
  | false =>
    refine .bind (h₂.editGraph (Graph.addEdge_ensures b test)) ?_
    rintro testSlot s₃ ⟨h₃, hsame₃⟩
    refine .bind (h₃.editGraph (Graph.newSlot_ensures body)) ?_
    rintro bodySlot s₄ ⟨h₄, hsame₄⟩
    exact .pure_bind (hrest testSlot bodySlot s₄ h₄ (hbody.same (hsame₃.trans hsame₄)))

theorem leaveLoop (h : s₀.Wrote s is b (f :: fs)) {test body : BlockId} {k k' : SlotId}
    (hbranches : f.branches = [test, body]) (hslots : f.branchSlots = [k, k'])
    (repetition : Repetition) : Ensures (Build.leaveLoop repetition) s fun _ s' =>
      s₀.Proceeds s' is fs := by
  refine .bind h.popFork? ?_
  rintro _ s₁ ⟨rfl, h₁⟩
  simp only [hbranches, hslots]
  refine .get_bind (.lift_bind fun unjoined _ => ?_)
  refine .bind h₁.newRoom ?_
  rintro next s₂ ⟨h₂, hnext, -⟩
  refine .bind (h₂.editGraph (Graph.newSlot_ensures next)) ?_
  rintro nextSlot s₃ ⟨h₃, hsame₃⟩
  have hback : ∀ back s₄, s₀.Wrote s₄ is b fs → s₀.Room s₄ next → Ensures (do
      for c in unjoined do
        unless (← (← get).graph.block c).flags.ending do
          let _ ← Build.editGraph (Graph.link c back)
      Build.setCurrent next) s₄ fun _ s' => s₀.Proceeds s' is fs := by
    intro back s₄ h₄ hnext₄
    refine .bind (.forIn (P := fun _ s' => s₀.Wrote s' is b fs ∧ s₀.Room s' next) ⟨h₄, hnext₄⟩ ?_)
      fun _ s₅ h₅ => h₅.1.setCurrent h₅.2
    rintro c - _ s₅ ⟨h₅, hnext₅⟩
    refine .get_bind (.lift_bind fun block _ => ?_)
    split
    · exact .pure ⟨h₅, hnext₅⟩
    · exact .bind (h₅.editGraph (Graph.link_ensures c back)) fun _ _ h₆ =>
        .pure ⟨h₆.1, hnext₅.same h₆.2⟩
  have hnext₃ := hnext.same hsame₃
  cases repetition.isIterative with
  | true =>
    refine .bind (h₃.editGraph (Graph.link_ensures test nextSlot)) ?_
    rintro _ s₄ ⟨h₄, hsame₄⟩
    exact hback _ s₄ h₄ (hnext₃.same hsame₄)
  | false => exact hback _ s₃ h₃ hnext₃

/-! ### Sentences -/

/-- A sentence is opened if none is open. -/
theorem ensureSentence (h : s₀.Wrote s is b fs) (hb : s₀.Room s b) :
    Ensures Build.ensureSentence s fun _ s' => s₀.Proceeds s' is fs := by
  refine .get_bind ?_
  split
  · refine .get_bind (.bind (Build.editProcedures_ensures _) ?_)
    rintro sentence s₁ ⟨hdesk, hgraph⟩
    have h₁ := h.of_desk (hgraph ▸ .refl _) hdesk
    have h₂ : s₀.Wrote { s₁ with currentSentence := some sentence } is b fs :=
      h₁.of_desk (.refl _) rfl
    refine .modify_bind (.bind h₂.newRoom ?_)
    rintro t s₂ ⟨h₂, ht, -⟩
    refine .get_bind (.set_bind ?_)
    have h₃ : s₀.Wrote { s₂ with declarativeEntry := false } is b fs := h₂.of_desk (.refl _) rfl
    have ht₃ : s₀.Room { s₂ with declarativeEntry := false } t := ht.same (.refl _)
    split
    · refine .bind (h₃.editGraph (Graph.addRoot_ensures t)) ?_
      rintro _ s₄ ⟨h₄, hsame⟩
      exact h₄.setCurrent (ht₃.same hsame)
    · split
      · next previous _ =>
        refine .bind (h₃.editGraph (Graph.addEdge_ensures previous t)) ?_
        rintro slot s₄ ⟨h₄, hsame⟩
        refine .bind (Build.editProcedures_ensures _) ?_
        rintro _ s₅ ⟨hdesk, hgraph⟩
        have h₅ := h₄.of_desk (hgraph ▸ .refl _) hdesk
        exact h₅.setCurrent ((ht₃.same hsame).same (hgraph ▸ .refl _))
      · exact h₃.setCurrent ht₃
  · exact .pure ⟨b, h, hb⟩

end Wrote

end Scope

end CobolFlow
