import CobolFlow.Build.Decision
import CobolFlow.Proofs.Trace.Since
import CobolFlow.Proofs.Writing.Pages

/-!
# Where the next statement goes

A statement goes into the block that is current, and while a sentence is read some other block
becomes current again and again. It is always one into which something can be written, and it is
either the block with which the piece at hand began or one that was made since. So all other blocks
stay as they were, and among them are those that wait to become current later.

`Scope.Wrote` says what has been written since some earlier scope, where the next statement goes,
and which forks are open. Nothing is said about edges.

## Main definitions

* `Scope.Wrote` — what has been written since an earlier scope
* `Scope.Proceeds` — and more can be written
* `Scope.Signed` — a block that waits for its edges ends in a transfer of control

## Main results

* `Scope.Wrote.newBlock`, `Scope.Wrote.openBranch`, `Scope.Wrote.joinFork` and others — one for
  each step
-/

namespace CobolFlow

/-- The statement hands control over to a place that is only known when the division ends. -/
def NodeTag.transfers : NodeTag → Bool
  | .goToSimple | .goToConditional | .nextSentence | .perform => true
  | _ => false

/-- The block ends in a transfer of control. -/
def Spot.Transfers (t : Spot) : Prop := ∃ i ∈ t.nodes.getLast?, i.tag.transfers = true

theorem Spot.Transfers.not_writable {t : Spot} (h : t.Transfers) : ¬ t.Writable := by
  obtain ⟨i, hi, htransfers⟩ := h
  intro hw
  have hcloses := hw i (List.mem_of_getLast? hi)
  revert htransfers hcloses
  cases i.tag <;> simp [NodeTag.transfers, NodeTag.closes]

namespace Scope

/-- What statements leave alone: whether a division and the DECLARATIVES are open, which nodes are
open, and what has been done against the protocol. -/
def stage (s : Scope) : Bool × Option BlockId × List NodeTag × List Violation :=
  (s.inDivision, s.declaratives, s.enclosing, s.violations)

/-- What stays when the graph and the catalog are edited. -/
def desk (s : Scope) : (Bool × Option BlockId × List NodeTag × List Violation) ×
    Option BlockId × List Fork × Pending :=
  (s.stage, s.currentBlock, s.forks, s.pending)

/-- The blocks that wait for what is found out when the division ends. -/
def awaiting (s : Scope) : List BlockId :=
  s.pending.jumps.map (·.block) ++ s.pending.nextSentences.map (·.block) ++
    s.graph.groups.toList.map (·.callSite)

/-- All of them end in a transfer of control. -/
def Signed (s : Scope) : Prop := ∀ c ∈ s.awaiting, (s.graph.chart c).Transfers

/-- A block that may be written into: the one that was current, or one that was made since. -/
def May (s₀ : Scope) (b : BlockId) : Prop := s₀.currentBlock = some b ∨ s₀.graph.size ≤ b

/-- There is room in a block. -/
structure Room (s₀ s : Scope) (b : BlockId) : Prop where
  may : s₀.May b
  lt : b < s.graph.size
  writable : (s.graph.chart b).Writable

/-- What has happened since `s₀`: `is` has been written, the block `b` is current, and `fs` are the
open forks. -/
structure Wrote (s₀ s : Scope) (is : List Instruction) (b : BlockId) (fs : List Fork) : Prop where
  logs : ∀ l, s₀.graph.Logs l → ∃ e : Log, e.map (·.2) = is ∧ s.graph.Logs (l ++ e)
  signed : s₀.Signed → s.Signed
  stage : s.stage = s₀.stage
  here : s.currentBlock = some b
  may : s₀.May b
  lt : b < s.graph.size
  forks : s.forks = fs
  size_le : s₀.graph.size ≤ s.graph.size
  spares : ∀ c < s₀.graph.size, s₀.currentBlock ≠ some c →
    (s.graph.chart c).nodes = (s₀.graph.chart c).nodes

/-- What has happened since `s₀`, and the current block has room. -/
def Proceeds (s₀ s : Scope) (is : List Instruction) (fs : List Fork) : Prop :=
  ∃ b, s₀.Wrote s is b fs ∧ s₀.Room s b

variable {s₀ s s' s₁ s₂ : Scope} {is js : List Instruction} {b t : BlockId} {f : Fork}
  {fs fs' : List Fork} {i : Instruction}

theorem Room.of_nodes (h : s₀.Room s t) (hsize : s.graph.size ≤ s'.graph.size)
    (hnodes : (s'.graph.chart t).nodes = (s.graph.chart t).nodes) : s₀.Room s' t where
  may := h.may
  lt := h.lt.trans_le hsize
  writable := by rw [Spot.Writable, hnodes]; exact h.writable

theorem Room.same (h : s₀.Room s t) (hg : s.graph.Same s'.graph) : s₀.Room s' t :=
  h.of_nodes hg.size_le (hg.nodes t)

theorem awaiting_congr (hpending : s'.pending = s.pending)
    (hgroups : s'.graph.groups = s.graph.groups) : s'.awaiting = s.awaiting := by
  simp only [awaiting, hpending, hgroups]

theorem Signed.of_nodes (h : s.Signed) (hawaiting : s'.awaiting = s.awaiting)
    (hnodes : ∀ c, ¬ (s.graph.chart c).Writable →
      (s'.graph.chart c).nodes = (s.graph.chart c).nodes) : s'.Signed := by
  intro c hc
  rw [hawaiting] at hc
  rw [Spot.Transfers, hnodes c (h c hc).not_writable]
  exact h c hc

namespace Wrote

/-- Nothing has happened yet. -/
theorem refl (hb : s.currentBlock = some b) (hlt : b < s.graph.size) : s.Wrote s [] b s.forks where
  logs l hl := ⟨[], rfl, by simpa using hl⟩
  signed h := h
  stage := rfl
  here := hb
  may := .inl hb
  lt := hlt
  forks := rfl
  size_le := le_rfl
  spares _ _ _ := rfl

/-- What has happened in two steps. -/
theorem trans (h : s₀.Wrote s₁ is b fs) (h' : s₁.Wrote s₂ js t fs') :
    s₀.Wrote s₂ (is ++ js) t fs' where
  logs l hl := by
    obtain ⟨e, rfl, he⟩ := h.logs l hl
    obtain ⟨e', rfl, he'⟩ := h'.logs _ he
    exact ⟨e ++ e', by simp, by rwa [← List.append_assoc]⟩
  signed hs := h'.signed (h.signed hs)
  stage := h'.stage.trans h.stage
  here := h'.here
  may := by
    obtain hcurrent | hle := h'.may
    · obtain rfl := Option.some.inj (h.here.symm.trans hcurrent)
      exact h.may
    · exact .inr (h.size_le.trans hle)
  lt := h'.lt
  forks := h'.forks
  size_le := h.size_le.trans h'.size_le
  spares c hc hne := by
    refine (h'.spares c (hc.trans_le h.size_le) fun hcurrent => ?_).trans (h.spares c hc hne)
    obtain rfl := Option.some.inj (h.here.symm.trans hcurrent)
    exact h.may.elim hne fun hle => (hc.trans_le hle).false

/-- A block that was set aside before something was written still has room. -/
theorem room_of_ne (h : s₁.Wrote s₂ js b fs) (ht : s₀.Room s₁ t) (hne : s₁.currentBlock ≠ some t) :
    s₀.Room s₂ t :=
  ht.of_nodes h.size_le (h.spares t ht.lt hne)

/-- The forks change, and nothing is written. -/
theorem same (h : s₀.Wrote s is b fs) (hg : s.graph.Same s'.graph) (hstage : s'.stage = s.stage)
    (hhere : s'.currentBlock = s.currentBlock) (hforks : s'.forks = fs')
    (hpending : s'.pending = s.pending) : s₀.Wrote s' is b fs' where
  logs l hl := by
    obtain ⟨e, he, hlogs⟩ := h.logs l hl
    exact ⟨e, he, hlogs.same hg⟩
  signed hs := (h.signed hs).of_nodes (awaiting_congr hpending hg.groups) fun c _ => hg.nodes c
  stage := hstage.trans h.stage
  here := hhere.trans h.here
  may := h.may
  lt := h.lt.trans_le hg.size_le
  forks := hforks
  size_le := h.size_le.trans hg.size_le
  spares c hc hne := (hg.nodes c).trans (h.spares c hc hne)

theorem of_desk (h : s₀.Wrote s is b fs) (hg : s.graph.Same s'.graph) (hdesk : s'.desk = s.desk) :
    s₀.Wrote s' is b fs := by
  simp only [desk, Prod.mk.injEq] at hdesk
  obtain ⟨hstage, hhere, hforks, hpending⟩ := hdesk
  exact h.same hg hstage hhere (hforks.trans h.forks) hpending

/-- Another block becomes current. -/
theorem goTo (h : s₀.Wrote s is b fs) (ht : s₀.Room s t) (hg : s'.graph = s.graph)
    (hstage : s'.stage = s.stage) (hhere : s'.currentBlock = some t) (hforks : s'.forks = fs')
    (hpending : s'.pending = s.pending) : s₀.Wrote s' is t fs' := by
  have hsame : s.graph.Same s'.graph := hg ▸ .refl _
  have hstill : s₀.Wrote { s' with currentBlock := s.currentBlock } is b fs' :=
    h.same hsame hstage rfl hforks hpending
  exact { hstill with
      here := hhere
      may := ht.may
      lt := hg ▸ ht.lt
      signed := fun hs => (h.signed hs).of_nodes (awaiting_congr hpending hsame.groups)
        fun c _ => hsame.nodes c }

/-- More blocks wait, all of which end in a transfer of control. -/
theorem await (h : s₀.Wrote s is b fs)
    (hgraph : s'.graph = { s.graph with groups := s'.graph.groups }) (hstage : s'.stage = s.stage)
    (hhere : s'.currentBlock = s.currentBlock) (hforks : s'.forks = s.forks)
    (hnew : ∀ c ∈ s'.awaiting, c ∈ s.awaiting ∨ (s.graph.chart c).Transfers) :
    s₀.Wrote s' is b fs := by
  have hchart : s'.graph.chart = s.graph.chart := by
    rw [hgraph]
    exact Graph.chart_congr rfl rfl
  have hsize : s'.graph.size = s.graph.size := by
    rw [hgraph]
    rfl
  refine ⟨fun l hl => ?_, fun hs c hc => ?_, hstage.trans h.stage, hhere.trans h.here, h.may,
    hsize ▸ h.lt, hforks.trans h.forks, hsize ▸ h.size_le, hchart ▸ h.spares⟩
  · obtain ⟨e, he, hlogs⟩ := h.logs l hl
    refine ⟨e, he, ⟨hchart ▸ hlogs.nodes, ?_, hsize ▸ hlogs.inside, hchart ▸ hlogs.defaults,
      hchart ▸ hlogs.shaped⟩⟩
    rw [hgraph]
    exact hlogs.owners
  · rw [hchart]
    exact (hnew c hc).elim (h.signed hs c) fun h => h

/-- Something is written into a block that has room. -/
theorem ink {m : BlockFlags} (h : s₀.Wrote s is b fs) (hg : s.graph.Inks s'.graph t js m)
    (hdesk : s'.desk = s.desk) (hmay : s₀.May t) (ht : t < s'.graph.size)
    (hw : (s.graph.chart t).Writable) (hneat : Spot.Neat js m) :
    s₀.Wrote s' (is ++ js) b fs := by
  simp only [desk, Prod.mk.injEq] at hdesk
  obtain ⟨hstage, hhere, hforks, hpending⟩ := hdesk
  refine ⟨fun l hl => ?_, fun hs => ?_, hstage.trans h.stage, hhere.trans h.here, h.may,
    h.lt.trans_le hg.size_le, hforks.trans h.forks, h.size_le.trans hg.size_le, fun c hc hne => ?_⟩
  · obtain ⟨e, rfl, hlogs⟩ := h.logs l hl
    refine ⟨e ++ Log.entries t js, by simp, ?_⟩
    rw [← List.append_assoc]
    exact hlogs.ink hg ht hw hneat
  · refine (h.signed hs).of_nodes (awaiting_congr hpending hg.groups) fun c hc => ?_
    rw [hg.nodes, if_neg]
    rintro rfl
    exact hc hw
  · rw [hg.nodes, if_neg, h.spares c hc hne]
    rintro rfl
    exact hmay.elim hne fun hle => (hc.trans_le hle).false

end Wrote

end Scope

/-! ### Steps on a part of the scope -/

namespace Build

variable {s : Scope} {α : Type}

theorem editGraph_ensures {e : Graph.Edit α} {P : α → Graph → Prop} (h : Ensures e s.graph P) :
    Ensures (editGraph e) s fun a s' => s'.desk = s.desk ∧ P a s'.graph := by
  intro a s' hrun
  rw [editGraph] at hrun
  cases he : e s.graph with
  | error fault =>
    rw [he] at hrun
    cases hrun
  | ok r =>
    rw [he] at hrun
    cases hrun
    exact ⟨rfl, h _ _ he⟩

theorem editProcedures_ensures (e : Procedures.Edit α) :
    Ensures (editProcedures e) s fun _ s' => s'.desk = s.desk ∧ s'.graph = s.graph := by
  intro a s' hrun
  rw [editProcedures] at hrun
  cases he : e s.procedures with
  | error fault =>
    rw [he] at hrun
    cases hrun
  | ok r =>
    rw [he] at hrun
    cases hrun
    exact ⟨rfl, rfl⟩

theorem currentTag_ensures : Ensures currentTag s fun _ s' => s' = s := by
  refine .get_bind ?_
  split
  · exact .lift_bind fun procedure _ => .pure rfl
  · exact .pure rfl

/-- A new block is marked for the first time. -/
theorem relabel_ensures {g : Graph} (b : BlockId) (tag : Option String) (f : BlockFlags)
    (hflags : (g.chart b).flags = .none) :
    Ensures (Graph.modifyBlock b fun block => { block with tag, flags := f }) g fun _ g' =>
      g.Inks g' b [] f := by
  rintro ⟨⟩ g' h
  obtain ⟨hb, rfl⟩ := (Graph.modifyBlock_eq_ok_iff b _ g g').1 h
  have hb' : g.blocks[b]? = some g.blocks[b] := Array.getElem?_eq_getElem hb
  refine ⟨by simp [Graph.size], fun c => ?_, fun c => ?_, rfl, rfl⟩
  · simp only [Graph.chart_nodes, Array.getElem?_modify]
    by_cases hc : c = b
    · cases g.blocks[c]? <;> simp [hc]
    · simp [hc, Ne.symm hc]
  · by_cases hc : c = b
    · subst hc
      rw [if_pos rfl, hflags]
      simp [Graph.chart_flags, Array.getElem?_modify, hb', BlockFlags.union, BlockFlags.none]
    · simp [Graph.chart_flags, Array.getElem?_modify, hc, Ne.symm hc]

/-- A block has been made that begins with some instructions. -/
structure Adds (s s' : Scope) (leading : List Instruction) (b : BlockId) : Prop where
  eq : b = s.graph.size
  desk : s'.desk = s.desk
  lt : b < s'.graph.size
  inks : ∃ m : BlockFlags, m.ending = false ∧ s.graph.Inks s'.graph b leading m

theorem newBlock_ensures (leading : Option Instruction) :
    Ensures (newBlock leading) s fun b s' => Adds s s' leading.toList b := by
  refine .bind (editGraph_ensures Graph.addBlock_ensures) ?_
  rintro b s₁ ⟨hdesk₁, rfl, hsize, hsame⟩
  refine .bind currentTag_ensures ?_
  rintro tag _ rfl
  refine .get_bind (.bind (editGraph_ensures (relabel_ensures _ _ _ ?_)) ?_)
  · rw [hsame.flags, Graph.chart_of_size_le le_rfl]
    rfl
  rintro _ s₂ ⟨hdesk₂, hinks⟩
  have hlt : s.graph.size < s₂.graph.size := by have := hinks.size_le; omega
  have hinks₂ := (Graph.Inks.of_same hsame s.graph.size).trans hinks
  have hlisted : ∀ s₃ : Scope, Adds s s₃ leading.toList s.graph.size →
      Ensures (enlist s.graph.size) s₃ fun b s' => Adds s s' leading.toList b := fun s₃ h => by
    refine .get_bind ?_
    split
    · refine .bind (editProcedures_ensures _) ?_
      rintro _ s₄ ⟨hdesk, hgraph⟩
      exact .pure { h with
        desk := hdesk.trans h.desk
        lt := hgraph ▸ h.lt
        inks := hgraph ▸ h.inks }
    · exact .pure h
  cases leading with
  | none => exact hlisted s₂ ⟨rfl, hdesk₂.trans hdesk₁, hlt, _, rfl, hinks₂⟩
  | some i =>
    refine .bind (editGraph_ensures (Graph.appendInstruction_ensures _ _)) ?_
    rintro _ s₃ ⟨hdesk₃, -, happend⟩
    exact hlisted s₃ ⟨rfl, hdesk₃.trans (hdesk₂.trans hdesk₁), hlt.trans_le happend.size_le,
      _, rfl, hinks₂.trans happend⟩

theorem current?_ensures {b : BlockId} (hb : s.currentBlock = some b)
    {f : Option BlockId → Build α} {P : α → Scope → Prop} (hf : Ensures (f (some b)) s P) :
    Ensures (current? >>= f) s P := by
  have hrun : current? s = .ok (some b, s) := by
    rw [current?, run_bind (a := s) (t := s) rfl, hb]
    rfl
  intro a s' hx
  rw [run_bind hrun] at hx
  exact hf a s' hx

theorem addInstruction_ensures {b : BlockId} (hb : s.currentBlock = some b) (i : Instruction) :
    Ensures (addInstruction i) s fun _ s' =>
      s'.desk = s.desk ∧ s.graph.Inks s'.graph b [i] .none :=
  current?_ensures hb ((editGraph_ensures (Graph.appendInstruction_ensures b i)).mono
    fun _ _ h => ⟨h.1, h.2.2⟩)

/-- A statement that leaves is put into the current block, which is marked. -/
theorem addEnding_ensures {b : BlockId} (hb : s.currentBlock = some b) (i : Instruction) :
    Ensures (do
      addInstruction i
      markCurrent { ending := true }) s fun _ s' =>
        s'.desk = s.desk ∧ s.graph.Inks s'.graph b [i] { ending := true } := by
  refine .bind (addInstruction_ensures hb i) ?_
  rintro _ s₁ ⟨hdesk₁, hinks₁⟩
  have hhere : s₁.currentBlock = some b := by
    simp only [Scope.desk, Prod.mk.injEq] at hdesk₁
    exact hdesk₁.2.1.trans hb
  refine current?_ensures hhere ((editGraph_ensures (Graph.markBlock_ensures b _)).mono ?_)
  rintro _ s₂ ⟨hdesk₂, -, hinks₂⟩
  exact ⟨hdesk₂.trans hdesk₁, hinks₁.trans hinks₂⟩

end Build

namespace Fork

variable {f : Fork} {g : Graph} {b : BlockId}

theorem addBranch_ensures : Ensures (f.addBranch b) g fun f' g' => g.Same g' ∧
    ∃ slots, f' = { f with branches := f.branches ++ [b], branchSlots := slots } := by
  simp only [addBranch]
  split
  · exact .bind (Graph.addEdge_ensures _ b) fun k _ h => .pure ⟨h, _, rfl⟩
  · exact .pure ⟨.refl g, _, rfl⟩

theorem close_ensures (originToNext : Bool) (stop : Option BlockId) (next : BlockId) :
    Ensures (f.close originToNext stop next) g fun _ g' => g.Same g' := by
  refine .get_bind (.lift_bind fun found _ => ?_)
  refine .bind (.filterM (I := (· = g)) rfl ?_) ?_
  · rintro c - _ rfl
    exact .lift_bind fun block _ => .pure rfl
  · rintro unjoined _ rfl
    dsimp only
    generalize unjoined ++ (if originToNext = true then f.origin.toList else []) = sources
    split
    · exact .pure (.refl _)
    · refine .bind (Graph.newSlot_ensures next) fun k g₁ h₁ => ?_
      refine .bind (Graph.forIn_ensures fun c g₂ => ?_) fun _ _ h₂ => .pure (h₁.trans h₂)
      exact .bind (Graph.link_ensures c k) fun _ _ h => .pure h

end Fork

/-! ### Steps -/

namespace Scope.Wrote

variable {s₀ s : Scope} {is : List Instruction} {b t : BlockId} {f : Fork} {fs : List Fork}
  {α : Type}

theorem editGraph (h : s₀.Wrote s is b fs) {e : Graph.Edit α}
    (he : Ensures e s.graph fun _ g => s.graph.Same g) :
    Ensures (Build.editGraph e) s fun _ s' => s₀.Wrote s' is b fs ∧ s.graph.Same s'.graph :=
  (Build.editGraph_ensures he).mono fun _ _ h' => ⟨h.of_desk h'.2 h'.1, h'.2⟩

/-- **A new block** has room, unless it begins with a statement that ends it. -/
theorem newBlock (h : s₀.Wrote s is b fs) {leading : Option Instruction}
    (hl : ∀ i ∈ leading, i.tag.isListed = true ∧ i.tag.leaves = false) :
    Ensures (Build.newBlock leading) s fun t s' => s₀.Wrote s' (is ++ leading.toList) b fs ∧
      (s'.graph.chart t).nodes = leading.toList ∧ (s₀.May t ∧ t < s'.graph.size) ∧
      ∀ c, s₀.Room s c → s₀.Room s' c ∧ c ≠ t := by
  refine (Build.newBlock_ensures leading).mono ?_
  rintro _ s' ⟨rfl, hdesk, hlt, m, hm, hinks⟩
  have hempty : (s.graph.chart s.graph.size).nodes = [] := by
    rw [Graph.chart_of_size_le le_rfl]
  have hneat : Spot.Neat leading.toList m := by
    cases leading with
    | none => exact .nil hm
    | some i => exact .single (hl i rfl).1 (hm.trans (hl i rfl).2.symm)
  refine ⟨h.ink hinks hdesk (.inr h.size_le) hlt (by simp [Spot.Writable, hempty]) hneat,
    by simp [hinks.nodes, hempty], ⟨.inr h.size_le, hlt⟩, fun c hc => ?_⟩
  exact ⟨hc.of_nodes hinks.size_le (by rw [hinks.nodes, if_neg hc.lt.ne]), hc.lt.ne⟩

/-- A new block into which nothing has been written. -/
theorem newRoom (h : s₀.Wrote s is b fs) : Ensures (Build.newBlock none) s fun t s' =>
    s₀.Wrote s' is b fs ∧ s₀.Room s' t ∧ ∀ c, s₀.Room s c → s₀.Room s' c ∧ c ≠ t := by
  refine (h.newBlock fun i (hi : i ∈ none) => nomatch hi).mono ?_
  rintro t s' ⟨h', hnodes, ⟨hmay, hlt⟩, hrooms⟩
  exact ⟨by simpa using h', ⟨hmay, hlt, by simp [Spot.Writable, hnodes]⟩, hrooms⟩

theorem setCurrent (h : s₀.Wrote s is b fs) (ht : s₀.Room s t) :
    Ensures (Build.setCurrent t) s fun _ s' => s₀.Proceeds s' is fs :=
  .modify ⟨t, h.goTo ht rfl rfl rfl h.forks rfl, ht.same (.refl _)⟩

theorem breakBlock (h : s₀.Wrote s is b fs) :
    Ensures Build.breakBlock s fun _ s' => s₀.Proceeds s' is fs := by
  refine .bind h.newRoom ?_
  rintro t s₁ ⟨h₁, ht, -⟩
  exact .bind (h₁.setCurrent ht) fun _ _ h₂ => .pure h₂

/-- Something is put into the current block that does not end it. -/
theorem addInstruction (h : s₀.Wrote s is b fs) (hb : s₀.Room s b) {i : Instruction}
    (hlisted : i.tag.isListed = true) (hleaves : i.tag.leaves = false) :
    Ensures (Build.addInstruction i) s fun _ s' => s₀.Wrote s' (is ++ [i]) b fs ∧
      (i.tag.closes = false → s₀.Room s' b) := by
  refine (Build.addInstruction_ensures h.here i).mono ?_
  rintro _ s' ⟨hdesk, hinks⟩
  have hlt := hb.lt.trans_le hinks.size_le
  refine ⟨h.ink hinks hdesk hb.may hlt hb.writable (.single hlisted hleaves.symm), fun hi => ?_⟩
  refine ⟨hb.may, hlt, fun j hj => ?_⟩
  rw [hinks.nodes, if_pos rfl] at hj
  obtain hj | hj := List.mem_append.1 hj
  · exact hb.writable j hj
  · exact List.mem_singleton.1 hj ▸ hi

/-- A statement that leaves is put into the current block, which is marked. -/
theorem addEnding (h : s₀.Wrote s is b fs) (hb : s₀.Room s b) {i : Instruction}
    (hlisted : i.tag.isListed = true) (hleaves : i.tag.leaves = true) :
    Ensures (do
      Build.addInstruction i
      Build.markCurrent { ending := true }) s fun _ s' => s₀.Wrote s' (is ++ [i]) b fs ∧
        ∃ l, (s'.graph.chart b).nodes = l ++ [i] := by
  refine (Build.addEnding_ensures h.here i).mono ?_
  rintro _ s' ⟨hdesk, hinks⟩
  exact ⟨h.ink hinks hdesk hb.may (hb.lt.trans_le hinks.size_le) hb.writable
    (.single hlisted hleaves.symm), _, by rw [hinks.nodes, if_pos rfl]⟩

/-! ### Forks -/

/-- A branch is opened in a block that was made for it. -/
theorem openBranch (h : s₀.Wrote s is b (f :: fs)) (ht : s₀.Room s t) :
    Ensures (Build.openBranch t) s fun _ s' => s.graph.Same s'.graph ∧ ∃ slots, s₀.Wrote s' is t
      ({ f with branches := f.branches ++ [t], branchSlots := slots } :: fs) := by
  refine .get_bind ?_
  rw [h.forks]
  refine .bind (Build.editGraph_ensures Fork.addBranch_ensures) ?_
  rintro _ s₁ ⟨hdesk, hsame, slots, rfl⟩
  have h₁ := h.of_desk hsame hdesk
  refine .modify_bind (.modify ⟨hsame, slots, ?_⟩)
  exact h₁.goTo (ht.same hsame) rfl rfl rfl rfl rfl

theorem pushFork (h : s₀.Wrote s is b fs) (f : Fork) : Ensures (Build.pushFork f) s fun _ s' =>
    s₀.Wrote s' is b (f :: fs) ∧ s'.graph = s.graph :=
  .modify ⟨h.same (.refl _) rfl rfl (congrArg (f :: ·) h.forks) rfl, rfl⟩

theorem popFork? (h : s₀.Wrote s is b (f :: fs)) : Ensures Build.popFork? s fun r s' =>
    r = some f ∧ s₀.Wrote s' is b fs := by
  refine .get_bind ?_
  rw [h.forks]
  exact .modify_bind (.pure ⟨rfl, h.same (.refl _) rfl rfl rfl rfl⟩)

/-- A fork is joined in a new block. -/
theorem joinFork (h : s₀.Wrote s is b fs) (f : Fork) (originToNext : Bool) :
    Ensures (Build.joinFork f originToNext) s fun _ s' => s₀.Proceeds s' is fs := by
  refine .bind h.newRoom ?_
  rintro t s₁ ⟨h₁, ht, -⟩
  refine .bind (h₁.editGraph (Fork.close_ensures originToNext none t)) ?_
  rintro _ s₂ ⟨h₂, hsame⟩
  exact h₂.setCurrent (ht.same hsame)

/-- Nothing happens while it is found out which branch is the default. -/
theorem isDefault (branch : Option BlockId) {P : Bool → Scope → Prop} (hP : ∀ r, P r s) :
    Ensures (Build.isDefault branch) s P := by
  cases branch with
  | none => exact .pure (hP _)
  | some c => exact .get_bind (.lift_bind fun block _ => .pure (hP _))

/-- The phrases that wait in the innermost fork no longer wait. -/
theorem takePhrases_zero (h : s₀.Wrote s is b (f :: fs)) : Ensures (Build.takePhrases 0) s
    fun r s' => r = f.phrases ∧ s₀.Wrote s' is b ({ f with phrases := [] } :: fs) ∧
      s'.graph = s.graph := by
  refine .modifyGet ⟨?_, h.same (.refl _) rfl rfl ?_ rfl, rfl⟩ <;> rw [h.forks] <;> rfl

theorem takePhrases_one {f₁ : Fork} (h : s₀.Wrote s is b (f₁ :: f :: fs)) :
    Ensures (Build.takePhrases 1) s fun r s' => r = f.phrases ∧
      s₀.Wrote s' is b (f₁ :: { f with phrases := [] } :: fs) ∧ s'.graph = s.graph := by
  refine .modifyGet ⟨?_, h.same (.refl _) rfl rfl ?_ rfl, rfl⟩ <;> rw [h.forks] <;> rfl

theorem deferPhrase (h : s₀.Wrote s is b (f :: fs)) (i : Instruction) :
    Ensures (Build.deferPhrase i) s fun _ s' =>
      s₀.Wrote s' is b ({ f with phrases := f.phrases ++ [i] } :: fs) ∧ s'.graph = s.graph := by
  refine .get_bind ?_
  rw [h.forks]
  exact .modify ⟨h.same (.refl _) rfl rfl rfl rfl, rfl⟩

end Scope.Wrote

end CobolFlow
