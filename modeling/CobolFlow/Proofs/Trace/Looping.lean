import CobolFlow.Proofs.Faultless.Decision
import CobolFlow.Proofs.Trace.Advance
import CobolFlow.Proofs.Trace.Loop

/-!
# In-line PERFORM

The fork of a loop holds the slot that leads into the test; the end of the body takes it again.

## Main results

* `Scope.Plays.loop` — an in-line PERFORM repeats its body
-/

namespace CobolFlow

open Scope

/-- Attaching an edge ends no block. -/
theorem Graph.ending_attach (g : Graph) (b c : BlockId) (k : SlotId) :
    (g.attach b k).ending c = g.ending c := by
  simp only [Graph.ending, Graph.getElem?_attach]
  split
  · cases g.blocks[c]? with
    | none => rfl
    | some block =>
      by_cases hk : k ∈ block.successors <;> simp [Block.attach, hk, Block.addSuccessor]
  · rfl

/-- A loop that is closed, step by step. -/
theorem Sketch.goTo_lead_edge_fresh {Γ : Sketch} {test : ℕ} {t : Spot} {sources : List ℕ}
    (htest : test < Γ.size) (hsources : ∀ b ∈ sources, b < Γ.size ∧ b ≠ test) :
    (((Γ.fresh t).edge test Γ.size).lead sources test).goTo Γ.size =
      Γ.closeLoop test t true sources := by
  simp only [fresh, edge, lead, goTo, closeLoop, mk.injEq, and_true]
  funext b
  by_cases hb : b ∈ sources
  · obtain ⟨hlt, hne⟩ := hsources b hb
    simp [hb, hne, hlt.ne]
  · by_cases hsize : b = Γ.size
    · subst hsize
      simp [hb, htest.ne']
    · by_cases heq : b = test
      · subst heq
        simp [hb, hsize]
      · simp [hb, hsize, heq]

theorem Sketch.goTo_lead_fresh_eq_closeLoop {Γ : Sketch} {test : ℕ} {t : Spot} {sources : List ℕ}
    (hsources : ∀ b ∈ sources, b < Γ.size ∧ b ≠ test) :
    ((Γ.fresh t).lead sources Γ.size).goTo Γ.size = Γ.closeLoop test t false sources := by
  simp only [fresh, lead, goTo, closeLoop, mk.injEq, and_true]
  funext b
  by_cases hb : b ∈ sources
  · obtain ⟨hlt, hne⟩ := hsources b hb
    simp [hb, hne, hlt.ne]
  · by_cases hsize : b = Γ.size
    · subst hsize
      simp [hb]
    · by_cases heq : b = test
      · subst heq
        simp [hb, hsize]
      · simp [hb, hsize, heq]

theorem Graph.ending_eq (g : Graph) (b : BlockId) : g.ending b = (g.chart b).flags.ending := by
  cases hb : g.blocks[b]? <;> simp [Graph.ending, Graph.chart, hb, Block.spot]

namespace Scope

variable {s₀ s : Scope} {Γ : Sketch} {fs : List Fork} {f : Fork} {l : Ledger} {b c : ℕ}
  {o : Options} {n : Node} {B : Behaviour} {events : List Notification}

/-- The blocks that do not end the program are led on through one slot. -/
def linkOpen (k : SlotId) (blocks : List BlockId) : Build PUnit :=
  forIn blocks PUnit.unit fun b _ => do
    let s ← get
    let block ← liftM (s.graph.block b)
    if block.flags.ending = true then pure (ForInStep.yield PUnit.unit)
    else do
      let _ ← Build.editGraph (Graph.link b k)
      pure (ForInStep.yield PUnit.unit)

theorem linkOpen_eq_ok (k : SlotId) {blocks : List BlockId} (h : ∀ b ∈ blocks, b < s.graph.size) :
    linkOpen k blocks s =
      .ok (⟨⟩, { s with graph := s.graph.attachAll k (blocks.filter (!s.graph.ending ·)) }) := by
  induction blocks generalizing s with
  | nil => rfl
  | cons b rest ih =>
    have hb := h b (by simp)
    obtain ⟨block, hok, hblock⟩ := Graph.exists_block_eq_ok hb
    have hending : s.graph.ending b = block.flags.ending := by simp [Graph.ending, hblock]
    rw [linkOpen, List.forIn_cons, bind_assoc, run_bind (a := s) (t := s) rfl, bind_assoc,
      run_bind (run_lift hok s)]
    cases hflag : block.flags.ending with
    | true =>
      rw [List.filter_cons_of_neg (by simp [hending, hflag])]
      exact ih fun c hc => h c (by simp [hc])
    | false =>
      obtain ⟨r, hlink⟩ := Graph.exists_link_eq_ok (s := k) hb
      rw [List.filter_cons_of_pos (by simp [hending, hflag])]
      simp only [Bool.false_eq_true, if_false]
      rw [bind_assoc, run_bind (Build.editGraph_eq_ok hlink)]
      refine (ih (s := { s with graph := s.graph.attach b k })
        fun c hc => by simpa using h c (by simp [hc])).trans ?_
      simp only [Graph.ending_attach]
      rfl

namespace Since

/-- The open ends of a body are led back or on. -/
theorem exists_linkOpen (h : Since s₀ s Γ fs l) {k : SlotId} (hk : s.graph.slots[k]? = some c)
    (blocks : List BlockId) (hlt : ∀ b ∈ blocks, b < Γ.size)
    (hnil : ∀ b ∈ blocks, (Γ.chart b).next = []) :
    ∃ s', linkOpen k blocks s = .ok (⟨⟩, s') ∧
      Since s₀ s' (Γ.lead (blocks.filter fun b => !(Γ.chart b).flags.ending) c) fs l := by
  have hlt' : ∀ b ∈ blocks, b < s.graph.size := fun b hb => (hlt b hb).trans_eq h.size.symm
  have hedit := Graph.edited_attachAll s₀.tag h.sound.graph hk
    (blocks.filter (!s.graph.ending ·)) (fun b hb => hlt' b (List.mem_filter.1 hb).1)
    fun b hb block hblock hmem => by
      have hnext := hnil b (List.mem_filter.1 hb).1
      rw [← h.chart, ← Graph.forall_not_leads_iff] at hnext
      have hlt := h.sound.graph.slot_lt hblock k hmem
      exact hnext _ ⟨block, k, hblock, hmem, Array.getElem?_eq_getElem hlt⟩
  have hsame : (fun b => !s.graph.ending b) = fun b => !(Γ.chart b).flags.ending := by
    funext b
    rw [Graph.ending_eq, h.chart]
  obtain ⟨s', hrun, h', -⟩ := h.exists_edit (e := fun _ => .ok ((), _)) rfl hedit rfl
    fun d _ => by rw [Sketch.flags_lead]
  obtain ⟨-, rfl⟩ := Prod.mk.inj (Except.ok.inj hrun)
  exact ⟨_, linkOpen_eq_ok k hlt', hsame ▸ h'⟩

/-- A loop is opened. -/
theorem exists_enterLoop (h : Since s₀ s Γ fs l) (i : Instruction) (testAfter : Bool) :
    ∃ (k₁ k₂ : SlotId) (s' : Scope), Build.enterLoop i testAfter s = .ok ((), s') ∧
      Since s₀ s' (Γ.openLoop (s₀.spot [i]) s₀.spot testAfter)
        (((Fork.openedBy i Γ.here).trackBranch Γ.size k₁).trackBranch (Γ.size + 1) k₂ :: fs) l ∧
      s'.graph.slots[k₁]? = some Γ.size := by
  have hlt : Γ.here < Γ.size := h.size ▸ h.sound.currentBlock _ h.here
  obtain ⟨s₁, hnew₁, h₁⟩ := h.exists_newBlock (some i)
  obtain ⟨s₂, hnew₂, h₂⟩ := h₁.exists_newBlock none
  -- the two slots
  obtain ⟨k₁, k₂, s₃, hslots, h₃, hk₁, hk₂⟩ : ∃ k₁ k₂ s₃,
      (∀ f : SlotId × SlotId → Build Unit, (if testAfter then do
          let bodySlot ← Build.editGraph (Graph.addEdge Γ.here (Γ.size + 1))
          let testSlot ← Build.editGraph (Graph.newSlot Γ.size)
          let x ← pure (testSlot, bodySlot)
          f x
        else do
          let testSlot ← Build.editGraph (Graph.addEdge Γ.here Γ.size)
          let bodySlot ← Build.editGraph (Graph.newSlot (Γ.size + 1))
          let x ← pure (testSlot, bodySlot)
          f x : Build Unit) s₂ = f (k₁, k₂) s₃) ∧
      Since s₀ s₃ (((Γ.fresh (s₀.spot [i])).fresh s₀.spot).edge Γ.here
        (if testAfter then Γ.size + 1 else Γ.size)) fs l ∧
      s₃.graph.slots[k₁]? = some Γ.size ∧ s₃.graph.slots[k₂]? = some (Γ.size + 1) := by
    have hhere : Γ.here < ((Γ.fresh (s₀.spot [i])).fresh s₀.spot).size :=
      Nat.lt_succ_of_lt (Nat.lt_succ_of_lt hlt)
    have htest : Γ.size < ((Γ.fresh (s₀.spot [i])).fresh s₀.spot).size :=
      Nat.lt_succ_of_lt (Nat.lt_succ_self _)
    have hbody : Γ.size + 1 < ((Γ.fresh (s₀.spot [i])).fresh s₀.spot).size := Nat.lt_succ_self _
    cases testAfter with
    | true =>
      obtain ⟨k₂, s₃, hedge, h₃, hk₂⟩ := h₂.exists_addEdge hhere hbody
      obtain ⟨k₁, s₄, hslot, h₄, hk₁⟩ := h₃.self.exists_newSlot (c := Γ.size) htest
      refine ⟨k₁, k₂, s₄, fun f => ?_, h₃.trans h₄, hk₁, h₄.draws.slots hk₂⟩
      exact (run_bind hedge _).trans ((run_bind hslot _).trans rfl)
    | false =>
      obtain ⟨k₁, s₃, hedge, h₃, hk₁⟩ := h₂.exists_addEdge hhere htest
      obtain ⟨k₂, s₄, hslot, h₄, hk₂⟩ := h₃.self.exists_newSlot (c := Γ.size + 1) hbody
      refine ⟨k₁, k₂, s₄, fun f => ?_, h₃.trans h₄, h₄.draws.slots hk₁, hk₂⟩
      exact (run_bind hedge _).trans ((run_bind hslot _).trans rfl)
  -- the test leads to the body
  have hsize₃ : s₃.graph.size = Γ.size + 2 := h₃.size
  obtain ⟨r, s₄, hlink, h₄⟩ := h₃.self.exists_link (b := Γ.size)
    (Nat.lt_succ_of_lt (Nat.lt_succ_self _)) hk₂ (by
      simp [Sketch.edge, Sketch.fresh, hlt.ne', Scope.spot])
  have hsize₄ : s₄.graph.size = Γ.size + 2 := h₄.size
  have hslot_lt : ∀ {k : SlotId} {c : ℕ}, s₃.graph.slots[k]? = some c →
      k < s₄.graph.slots.size := fun hk => (Array.getElem?_eq_some_iff.1 (h₄.draws.slots hk)).1
  have horigin : Γ.here < s₄.graph.size := by omega
  have htest : Γ.size < s₄.graph.size := by omega
  have hbody : Γ.size + 1 < s₄.graph.size := by omega
  obtain ⟨s₅, hpush, h₅⟩ := h₄.exists_pushFork (Build.Inside.trackBranch (Build.Inside.trackBranch
    (Build.inside_openedBy i horigin) htest (hslot_lt hk₁)) hbody (hslot_lt hk₂))
  obtain ⟨s₆, hcurrent, h₆⟩ := h₅.exists_setCurrent (b := Γ.size + 1) (Nat.lt_succ_self _)
  refine ⟨k₁, k₂, s₆, ?_, h₃.trans h₆, h₆.draws.slots hk₁⟩
  rw [Build.enterLoop, run_bind h.current?]
  refine (run_bind hnew₁ _).trans ((run_bind hnew₂ _).trans ((hslots _).trans ?_))
  exact (run_bind hlink _).trans ((run_bind hpush _).trans hcurrent)

/-- The blocks from which a body goes on, or where it ends the program. -/
theorem exists_terminals (h : Since s₀ s Γ fs l) {body : ℕ} (hbody : body < Γ.size) :
    ∃ unjoined, s.graph.terminals body none = .ok unjoined ∧
      ∀ t, t ∈ unjoined ↔ t < Γ.size ∧ (Γ.chart t).next = [] ∧ Γ.chart.Reaches body t := by
  have hbody' : body < s.graph.size := h.size.symm ▸ hbody
  obtain ⟨unjoined, hunjoined, hmem⟩ :=
    Graph.exists_terminals_eq_ok h.sound.graph.checked hbody' none
  refine ⟨unjoined, hunjoined, fun t => ?_⟩
  have hlt : t ∈ unjoined → t < Γ.size := fun ht =>
    h.size ▸ ((hmem t).1 ht).2.lt_size h.sound.graph.checked hbody'
  have hends : t ∈ unjoined ↔ (Γ.chart t).next = [] ∧ Γ.chart.Reaches body t := by
    rw [hmem, Graph.forall_not_leads_iff, Graph.trail_iff_reaches fun _ _ => by simp, h.chart]
  exact ⟨fun ht => ⟨hlt ht, hends.1 ht⟩, fun ht => hends.2 ht.2⟩

/-- No edge leads to a block that is not there. -/
theorem lt_of_mem_next (h : Since s₀ s Γ fs l) (hc : c ∈ (Γ.chart b).next) : c < Γ.size := by
  rw [← h.chart, ← Graph.leads_iff_mem_next] at hc
  exact h.size ▸ hc.lt_size h.sound.graph.checked

/-- The test of an iterative loop leads to what follows the loop. The open ends of the body lead
back to the test, or on. -/
theorem exists_leadBack {test : ℕ} {k k₁ : SlotId} {unjoined : List BlockId} {t : Spot}
    (h : Since s₀ s (Γ.fresh t) fs l) (hk : s.graph.slots[k]? = some Γ.size)
    (hk₁ : s.graph.slots[k₁]? = some test) (htest : test < Γ.size)
    (hnot : Γ.size ∉ (Γ.chart test).next) (hne : test ∉ unjoined)
    (hunjoined : ∀ b ∈ unjoined, b < Γ.size ∧ (Γ.chart b).next = []) (isIterative : Bool) :
    ∃ s', (do
        if isIterative then
          let _ ← Build.editGraph (Graph.link test k)
        linkOpen (if isIterative then k₁ else k) unjoined
        Build.setCurrent Γ.size : Build Unit) s = .ok ((), s') ∧
      Since s₀ s' (Γ.closeLoop test t isIterative
        (unjoined.filter fun b => !(Γ.chart b).flags.ending)) fs l := by
  have hfresh : ∀ b < Γ.size, (Γ.fresh t).chart b = Γ.chart b := fun b hb => by
    simp [Sketch.fresh, hb.ne]
  have hne' : ∀ b ∈ unjoined, b ≠ test := fun b hb he => hne (he ▸ hb)
  have hlt : ∀ b ∈ unjoined, b < Γ.size + 1 := fun b hb => Nat.lt_succ_of_lt (hunjoined b hb).1
  have hsources : ∀ b ∈ unjoined.filter fun b => !(Γ.chart b).flags.ending,
      b < Γ.size ∧ b ≠ test := fun b hb =>
    have hb := (List.mem_filter.1 hb).1
    ⟨(hunjoined b hb).1, hne' b hb⟩
  cases isIterative with
  | true =>
    obtain ⟨r, s₁, hlink, h₁⟩ := h.self.exists_link (b := test) (Nat.lt_succ_of_lt htest) hk
      (by rwa [hfresh test htest])
    have hsame : ∀ b ∈ unjoined, ((Γ.fresh t).edge test Γ.size).chart b = Γ.chart b :=
      fun b hb => by simpa [Sketch.edge, hne' b hb] using hfresh b (hunjoined b hb).1
    obtain ⟨s₂, hloop, h₂⟩ := h₁.exists_linkOpen (h₁.draws.slots hk₁) unjoined hlt
      fun b hb => by rw [hsame b hb, (hunjoined b hb).2]
    obtain ⟨s₃, hcurrent, h₃⟩ := h₂.exists_setCurrent (b := Γ.size) (Nat.lt_succ_self _)
    refine ⟨s₃, ?_, ?_⟩
    · simp only [if_true]
      exact (run_bind hlink _).trans ((run_bind hloop _).trans hcurrent)
    · rw [List.filter_congr fun b hb => by rw [hsame b hb],
        Sketch.goTo_lead_edge_fresh htest hsources] at h₃
      exact h.trans h₃
  | false =>
    have hsame : ∀ b ∈ unjoined, (Γ.fresh t).chart b = Γ.chart b :=
      fun b hb => hfresh b (hunjoined b hb).1
    obtain ⟨s₁, hloop, h₁⟩ := h.exists_linkOpen hk unjoined hlt
      fun b hb => by rw [hsame b hb, (hunjoined b hb).2]
    obtain ⟨s₂, hcurrent, h₂⟩ := h₁.exists_setCurrent (b := Γ.size) (Nat.lt_succ_self _)
    refine ⟨s₂, ?_, ?_⟩
    · simp only [Bool.false_eq_true, if_false]
      exact (run_bind hloop _).trans hcurrent
    · rw [List.filter_congr fun b hb => by rw [hsame b hb],
        Sketch.goTo_lead_fresh_eq_closeLoop hsources] at h₂
      exact h₂

/-- A loop is closed. -/
theorem exists_leaveLoop {test body : ℕ} {k₁ k₂ : SlotId} {i : Instruction} {origin : ℕ}
    (h : Since s₀ s Γ
      (((Fork.openedBy i origin).trackBranch test k₁).trackBranch body k₂ :: fs) l)
    (hk₁ : s.graph.slots[k₁]? = some test) (htest : (Γ.chart test).next ≠ [])
    (repetition : Repetition) :
    ∃ sources s', Build.leaveLoop repetition s = .ok ((), s') ∧
      Since s₀ s' (Γ.closeLoop test s₀.spot repetition.isIterative sources) fs l ∧
      ∀ b, b ∈ sources ↔ Γ.chart.OpenEnd [body] b := by
  have htest_lt : test < Γ.size := h.size ▸ h.inside.branches test (by simp [Fork.trackBranch])
  have hbody : body < Γ.size := h.size ▸ h.inside.branches body (by simp [Fork.trackBranch])
  obtain ⟨s₁, hpop, h₁, hgraph₁⟩ : ∃ s₁, Build.popFork? s = .ok (some _, s₁) ∧ Since s₀ s₁ Γ fs l ∧
      s₁.graph = s.graph :=
    ⟨_, h.popFork?_eq, h.withForks fs h.inside_outer, rfl⟩
  obtain ⟨unjoined, hunjoined, hmem⟩ := h₁.exists_terminals hbody
  obtain ⟨s₂, hnew, h₂⟩ := h₁.self.exists_newBlock none
  obtain ⟨k, s₃, hslot, h₃, hk⟩ := h₂.exists_newSlot (c := Γ.size) (Nat.lt_succ_self _)
  rw [h₁.spot] at h₃
  obtain ⟨s', hback, h'⟩ := h₃.self.exists_leadBack hk (h₃.draws.slots (by rwa [hgraph₁])) htest_lt
    (fun hc => (h₁.lt_of_mem_next hc).false) (fun ht => htest ((hmem test).1 ht).2.1)
    (fun b hb => ⟨((hmem b).1 hb).1, ((hmem b).1 hb).2.1⟩) repetition.isIterative
  refine ⟨_, s', ?_, h₁.trans (h₃.trans h'), fun b => ?_⟩
  · rw [Build.leaveLoop, run_bind hpop]
    refine (run_bind (a := s₁) (t := s₁) rfl _).trans ?_
    refine (run_bind (run_lift hunjoined _) _).trans ((run_bind hnew _).trans ?_)
    exact (run_bind hslot _).trans hback
  · have hlt : Γ.chart.Reaches body b → b < Γ.size := fun hreach =>
      hreach.mem hbody fun _ _ _ hc => h₁.lt_of_mem_next hc
    simp only [List.mem_filter, hmem, Chart.OpenEnd, Bool.not_eq_true', List.mem_singleton,
      exists_eq_left]
    tauto

end Since

/-- An in-line PERFORM. -/
theorem Plays.loop (h₀ : Ready s) {repetition : Repetition} {testAfter : Bool}
    (hn : n.kind = .loop repetition testAfter) (hbody : ∀ s, Ready s → Plays o s events B) :
    Plays o s (.enter n :: events ++ [.leave n])
      (B.loop ⟨n.id, n.tag⟩ repetition.isIterative testAfter) := by
  set i : Instruction := ⟨n.id, n.tag⟩
  obtain ⟨s₁, henter, k₁, k₂, h₁, hk₁⟩ := h₀.since.exists_enter (o := o) (n := n) h₀
    (by simp [Node.tag, hn, NodeKind.tag])
    (P := fun s' => ∃ k₁ k₂, Since s s' (s.sketch.openLoop (s.spot [i]) s.spot testAfter)
      (((Fork.openedBy i s.sketch.here).trackBranch s.sketch.size k₁).trackBranch
        (s.sketch.size + 1) k₂ :: s.forks) s.ledger ∧
      s'.graph.slots[k₁]? = some s.sketch.size) fun s₁ h => by
      obtain ⟨k₁, k₂, s', hrun, h'⟩ := h.exists_enterLoop i testAfter
      exact ⟨s', by simpa only [Build.enterKind, hn] using hrun, k₁, k₂, h'⟩
  have hlt := h₀.opened.here_lt
  have hsize : (s.sketch.openLoop (s.spot [i]) s.spot testAfter).size = s.sketch.size + 2 := rfl
  have hhere : (s.sketch.openLoop (s.spot [i]) s.spot testAfter).here = s.sketch.size + 1 := rfl
  have hbodySpot : (s.sketch.openLoop (s.spot [i]) s.spot testAfter).chart (s.sketch.size + 1) =
      s.spot := by
    rw [Sketch.chart_openLoop hlt rfl, if_pos rfl]
  have hopen : (s.sketch.openLoop (s.spot [i]) s.spot testAfter).Open :=
    ⟨Nat.lt_succ_self _, by rw [hhere, hbodySpot]; rfl, by rw [hhere, hbodySpot]; rfl,
      by rw [hhere, hbodySpot]; rfl⟩
  have h₁' := h₁.under n.tag
  obtain ⟨s₂, L, hplay, h₂⟩ := hbody _ (h₁'.ready (h₀.under n.tag) hopen)
  have hsince := h₁'.trans h₂.since
  have hfrag := h₂.fragment
  have hplaced := h₂.placed
  rw [h₁'.scope_sketch] at hfrag hplaced
  rw [h₁'.forks, h₁'.ledger, h₁'.currentSentence] at hsince
  have htest : (s₂.sketch.chart s.sketch.size).next ≠ [] := by
    rw [Fragment.chart_test h₀.opened ⟨rfl, rfl⟩ hfrag]
    simp
  have hk₂ : s₂.graph.slots[k₁]? = some s.sketch.size := h₂.since.draws.slots hk₁
  obtain ⟨s₃, hleave, sources, h₃, hsources⟩ := hsince.exists_leave (o := o) h₀ (P := fun s' =>
    ∃ sources, Since s s' (s₂.sketch.closeLoop s.sketch.size s.spot repetition.isIterative sources)
      s.forks (L.foldl (Ledger.post s.currentSentence) s.ledger) ∧
      ∀ b, b ∈ sources ↔ s₂.sketch.chart.OpenEnd [s.sketch.size + 1] b) fun s₃ h hgraph => by
      obtain ⟨sources, s', hrun, h'⟩ := h.exists_leaveLoop (hgraph ▸ hk₂) htest repetition
      exact ⟨s', by simpa only [Build.leaveInside, hn] using hrun, sources, h'⟩
  have hclose := Fragment.loop (s.spot [i]) repetition.isIterative h₀.opened ⟨rfl, rfl⟩
    ⟨rfl, fun _ => rfl⟩ rfl s.spot_blank s.spot_blank hfrag hsources
  have hsketch := h₃.scope_sketch
  rw [← hsketch] at h₃ hclose
  refine ⟨s₃, L, ?_, h₃, hclose, ?_, ?_⟩
  · rw [List.cons_append, Build.play_cons henter, Build.play_append hplay, Build.play_cons hleave,
      Build.play_nil]
  · rw [hsketch]
    exact (hplaced.ranged (Nat.le_succ _)).placed (Nat.le_succ _)
      hfrag.opened.here_lt.le (Nat.lt_succ_self _)
  · rw [h₂.kinds]
    simp [Notification.landmark?, Node.landmark?, hn]

end Scope

end CobolFlow
