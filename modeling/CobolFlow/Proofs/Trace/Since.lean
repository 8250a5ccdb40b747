import CobolFlow.Build.Replay
import CobolFlow.Proofs.Faultless.Scope
import CobolFlow.Proofs.Trace.Drawing

/-!
# What a sentence has come to

While the statements of a sentence are replayed, a scope changes in five ways only: its graph
grows, new blocks are listed with the sentence, another block becomes current, forks are opened and
closed, and something is put aside for the end of the division. `Scope.Since` says what of this has
happened since some earlier scope, and each step of a build comes with the rule for going on from
there.

What is put aside, and where, is kept as a list of *landmarks*. The list is made of the
notifications alone except for the blocks, so two builds of the same sentence agree on it up to
block numbers.

## Main definitions

* `Landmark`, `Ledger` — what is put aside for the end of the division
* `Scope.Since` — what has happened since an earlier scope

## Main results

* `Scope.Since.exists_newBlock`, `Scope.Since.exists_openBranch`, `Scope.Since.exists_joinFork` and
  others — one for each step
-/

namespace CobolFlow

theorem Build.editGraph_eq_ok {α : Type} {s : Scope} {e : Graph.Edit α} {a : α} {g : Graph}
    (h : e s.graph = .ok (a, g)) : editGraph e s = .ok (a, { s with graph := g }) := by
  rw [editGraph, h]
  rfl

/-! ### Flags -/

theorem Sketch.flags_sayAt (Γ : Sketch) (b : ℕ) (is : List Instruction) (c : ℕ) :
    ((Γ.sayAt b is).chart c).flags = (Γ.chart c).flags := by
  simp only [Sketch.sayAt]
  split <;> rfl

theorem Sketch.flags_edge (Γ : Sketch) (b c d : ℕ) :
    ((Γ.edge b c).chart d).flags = (Γ.chart d).flags := by
  simp only [Sketch.edge]
  split <;> rfl

theorem Sketch.flags_lead (Γ : Sketch) (sources : List ℕ) (t c : ℕ) :
    ((Γ.lead sources t).chart c).flags = (Γ.chart c).flags := by
  simp only [Sketch.lead]
  split <;> rfl

theorem Sketch.goTo_lead_fresh {Γ : Sketch} {t : Spot} {sources : List ℕ}
    (h : Γ.size ∉ sources) :
    ((Γ.fresh t).lead sources Γ.size).goTo Γ.size = Γ.join t sources := by
  simp only [Sketch.fresh, Sketch.lead, Sketch.goTo, Sketch.join, Sketch.mk.injEq, and_true]
  funext c
  by_cases hc : c = Γ.size
  · subst hc
    simp [h]
  · simp [hc]

/-! ### Landmarks -/

/-- A statement of a sentence that waits for the end of the division. -/
inductive Landmark
  | jump (node : NodeId) (span : Span) (jump : Jump)
  | nextSentence
  | call (node : NodeId) (span : Span) (range : PerformRange)
  | alter (span : Span) (clauses : List AlterClause)
deriving DecidableEq

/-- The exit that is taken at a landmark. -/
def Landmark.exit : Landmark → Option Exit
  | .jump n _ _ => some (.jump n)
  | .nextSentence => some .nextSentence
  | .call .. | .alter .. => none

/-- The landmark that a node is. -/
def Node.landmark? (n : Node) : Option Landmark :=
  match n.kind with
  | .goTo jump => some (.jump n.id n.span jump)
  | .nextSentence => some .nextSentence
  | .perform range => some (.call n.id n.span range)
  | .alter clauses => some (.alter n.span clauses)
  | _ => none

/-- The landmark that a notification brings. -/
def Notification.landmark? : Notification → Option Landmark
  | .enter n => n.landmark?
  | _ => none

/-- Landmarks with their blocks. -/
abbrev Landmarks := List (ℕ × Landmark)

/-- The exits that are taken at some landmarks. -/
def Landmarks.exits (L : Landmarks) : Departures :=
  fun e b => ∃ m, (b, m) ∈ L ∧ m.exit = some e

@[simp] theorem Landmarks.exits_nil : Landmarks.exits [] = fun _ _ => False := by
  funext e b
  simp [Landmarks.exits]

@[simp] theorem Landmarks.exits_append (L L' : Landmarks) :
    Landmarks.exits (L ++ L') = fun e b => Landmarks.exits L e b ∨ Landmarks.exits L' e b := by
  funext e b
  simp only [Landmarks.exits, List.mem_append, or_and_right, exists_or]

/-- What is put aside, and the groups that calls have opened. -/
abbrev Ledger := Pending × Array Group

/-- Puts a landmark of a sentence aside. -/
def Ledger.post (sentence : Option SentenceId) (l : Ledger) (e : ℕ × Landmark) : Ledger :=
  match e with
  | (block, .jump node span jump) =>
    ({ l.1 with jumps := l.1.jumps ++ [{ node, span, jump, block }] }, l.2)
  | (block, .nextSentence) =>
    match sentence with
    | some sentence =>
      ({ l.1 with nextSentences := l.1.nextSentences ++ [{ block, sentence }] }, l.2)
    | none => l
  | (callSite, .call node span range) =>
    ({ l.1 with performs := l.1.performs ++ [{ span, range, group := l.2.size }] },
      l.2.push { id := l.2.size, callSite, node, range := range.display })
  | (_, .alter span clauses) =>
    ({ l.1 with alters := l.1.alters ++ [{ span, clauses }] }, l.2)

/-! ### Listing blocks -/

/-- Lists blocks with a sentence. -/
def Procedures.list (c : Procedures) (sentence : Option SentenceId) (blocks : List BlockId) :
    Procedures :=
  match sentence with
  | some i => { c with
      sentences := c.sentences.modify i fun t => { t with blocks := t.blocks ++ blocks } }
  | none => c

@[simp] theorem Procedures.list_nil (c : Procedures) (i : Option SentenceId) : c.list i [] = c := by
  cases i with
  | none => rfl
  | some i =>
    have hsame : c.sentences.modify i (fun t => { t with blocks := t.blocks ++ [] }) =
        c.sentences := by
      refine Array.ext_getElem? fun j => ?_
      by_cases hij : i = j <;> simp [Array.getElem?_modify, hij]
    rw [list, hsame]

theorem Procedures.list_list (c : Procedures) (i : Option SentenceId) (l l' : List BlockId) :
    (c.list i l).list i l' = c.list i (l ++ l') := by
  cases i with
  | none => rfl
  | some i =>
    simp only [list, mk.injEq, true_and]
    refine Array.ext_getElem? fun j => ?_
    by_cases hij : i = j
    · simp [Array.getElem?_modify, hij, Function.comp_def]
    · simp [Array.getElem?_modify, hij]

@[simp] theorem Procedures.size_list (c : Procedures) (i : Option SentenceId) (l : List BlockId) :
    (c.list i l).sentences.size = c.sentences.size := by
  cases i <;> simp [list]

/-- The blocks of one sentence grow, and nothing else changes. -/
theorem Procedures.getElem?_list (c : Procedures) (i : Option SentenceId) (l : List BlockId)
    (j : SentenceId) : (c.list i l).sentences[j]? = (c.sentences[j]?).map fun t =>
      if i = some j then { t with blocks := t.blocks ++ l } else t := by
  cases i with
  | none => simp [list]
  | some i => by_cases hij : i = j <;> simp [list, Array.getElem?_modify, hij]

/-- Where a listed block comes from. -/
theorem Procedures.exists_of_getElem?_list {c : Procedures} {i : Option SentenceId}
    {l : List BlockId} {j : SentenceId} {t : Sentence} (ht : (c.list i l).sentences[j]? = some t) :
    ∃ t', c.sentences[j]? = some t' ∧ t'.declaratives = t.declaratives ∧
      ∀ b ∈ t.blocks, b ∈ t'.blocks ∨ i = some j ∧ b ∈ l := by
  rw [getElem?_list] at ht
  obtain ⟨t', ht', rfl⟩ := Option.map_eq_some_iff.1 ht
  refine ⟨t', ht', ?_, fun b hb => ?_⟩
  · split <;> rfl
  · split at hb
    · next hij => exact (List.mem_append.1 hb).imp_right fun hb => ⟨hij, hb⟩
    · exact .inl hb

namespace Scope

/-- The name that new blocks carry. -/
def tag (s : Scope) : Option String :=
  match (s.currentParagraph.or s.currentSection).bind (s.procedures.procedures[·]?) with
  | some procedure =>
    if procedure.name == rootSectionName then none else some procedure.name
  | none => none

/-- A new block. -/
def spot (s : Scope) (leading : List Instruction := []) : Spot where
  nodes := leading
  flags := { declaratives := s.declaratives.isSome }
  tag := s.tag

@[simp] theorem spot_nodes (s : Scope) (leading : List Instruction) :
    (s.spot leading).nodes = leading := rfl

theorem spot_blank (s : Scope) : s.spot.Blank := ⟨rfl, rfl, rfl, rfl⟩

/-- What is put aside. -/
def ledger (s : Scope) : Ledger := (s.pending, s.graph.groups)

/-- What the statements of a sentence leave alone. -/
def setting (s : Scope) : Scope :=
  { s with graph := {}, procedures := {}, currentBlock := none, forks := [], pending := {} }

/-- What has happened since `s₀`: the sketch is now `Γ`, the open forks are `fs`, and `l` is put
aside. -/
structure Since (s₀ s : Scope) (Γ : Sketch) (fs : List Fork) (l : Ledger) : Prop where
  sound : Sound s
  le : s₀.graph ≤ s.graph
  setting : s.setting = s₀.setting
  draws : s₀.graph.Draws s₀.tag s.graph
  procedures : s.procedures = s₀.procedures.list s₀.currentSentence
    (List.range' s₀.graph.size (s.graph.size - s₀.graph.size))
  here : s.currentBlock = some Γ.here
  sketch : s.graph.sketch Γ.here = Γ
  forks : s.forks = fs
  ledger : s.ledger = l
  /-- Which branches are taken by default is laid down when they are opened. -/
  defaults : ∀ b < s₀.graph.size, (Γ.chart b).flags.default = (s₀.graph.chart b).flags.default

variable {s₀ s : Scope} {Γ : Sketch} {fs : List Fork} {f : Fork} {l : Ledger} {b c : ℕ}

/-- The sketch of a scope. -/
def sketch (s : Scope) : Sketch := s.graph.sketch (s.currentBlock.getD 0)

namespace Since

theorem refl (hs : Sound s) (hb : s.currentBlock = some b) :
    Since s s s.sketch s.forks s.ledger := by
  refine ⟨hs, le_rfl, rfl, .refl _ _, by simp, ?_, ?_, rfl, rfl, fun _ _ => rfl⟩ <;>
    simp [Scope.sketch, Graph.sketch, hb]

theorem size (h : Since s₀ s Γ fs l) : s.graph.size = Γ.size := congrArg Sketch.size h.sketch

theorem chart (h : Since s₀ s Γ fs l) : s.graph.chart = Γ.chart := congrArg Sketch.chart h.sketch

theorem scope_sketch (h : Since s₀ s Γ fs l) : s.sketch = Γ := by
  rw [Scope.sketch, h.here]
  exact h.sketch

/-- What the setting fixes is as it was. -/
theorem keeps {α : Type} (h : Since s₀ s Γ fs l) (p : Scope → α)
    (hp : ∀ s : Scope, p s.setting = p s) : p s = p s₀ := by
  rw [← hp s, h.setting, hp]

theorem currentSentence (h : Since s₀ s Γ fs l) : s.currentSentence = s₀.currentSentence :=
  h.keeps Scope.currentSentence fun _ => rfl

theorem tag (h : Since s₀ s Γ fs l) : s.tag = s₀.tag := by
  have hprocedures : s.procedures.procedures = s₀.procedures.procedures := by
    rw [h.procedures]
    cases s₀.currentSentence <;> rfl
  simp only [Scope.tag, hprocedures, h.keeps Scope.currentParagraph fun _ => rfl,
    h.keeps Scope.currentSection fun _ => rfl]

theorem spot (h : Since s₀ s Γ fs l) (leading : List Instruction) :
    s.spot leading = s₀.spot leading := by
  simp only [Scope.spot, h.tag, h.keeps Scope.declaratives fun _ => rfl]

/-! ### Steps -/

/-- A change of the graph that adds no block. -/
theorem exists_edit (h : Since s₀ s Γ fs l) {α : Type} {e : Graph.Edit α} {a : α} {g' : Graph}
    {op : Sketch → Sketch} (hrun : e s.graph = .ok (a, g'))
    (hedit : s.graph.Edited s₀.tag g' op) (hsize : (op Γ).size = Γ.size)
    (hdefaults : ∀ b < s₀.graph.size,
      ((op Γ).chart b).flags.default = (Γ.chart b).flags.default) :
    ∃ s', Build.editGraph e s = .ok (a, s') ∧ Since s₀ s' (op Γ) fs l ∧ s'.graph = g' := by
  have hsketch : g'.sketch Γ.here = op Γ := by rw [hedit.sketch, h.sketch]
  have hhere : (op Γ).here = Γ.here := by rw [← hsketch]; rfl
  have hsize' : g'.size = s.graph.size :=
    (congrArg Sketch.size hsketch).trans (hsize.trans h.size.symm)
  refine ⟨_, Build.editGraph_eq_ok hrun, ⟨h.sound.withGraph hedit.sound hedit.le,
    h.le.trans hedit.le, h.setting, h.draws.trans hedit.draws, ?_, ?_, ?_, h.forks, ?_,
    fun b hb => (hdefaults b hb).trans (h.defaults b hb)⟩, rfl⟩
  · rw [hsize']
    exact h.procedures
  · rw [hhere]
    exact h.here
  · rw [hhere]
    exact hsketch
  · have hledger : (s.pending, g'.groups) = s.ledger := by rw [hedit.groups]; rfl
    exact hledger.trans h.ledger

/-- The stack of forks is changed. -/
theorem withForks (h : Since s₀ s Γ fs l) (fs' : List Fork) (hfs : ∀ f ∈ fs', f.Inside s.graph) :
    Since s₀ { s with forks := fs' } Γ fs' l :=
  { h with
    sound := { h.sound with forks := hfs }
    forks := rfl
    ledger := h.ledger }

/-- Another block becomes current. -/
theorem exists_setCurrent (h : Since s₀ s Γ fs l) (hb : b < Γ.size) :
    ∃ s', Build.setCurrent b s = .ok ((), s') ∧ Since s₀ s' (Γ.goTo b) fs l := by
  refine ⟨_, rfl, { h with
    sound := { h.sound with currentBlock := fun c hc => ?_ }
    here := rfl
    sketch := by rw [← h.sketch]; rfl
    ledger := h.ledger }⟩
  obtain rfl := Option.mem_some.1 hc
  exact hb.trans_eq h.size.symm

theorem current? (h : Since s₀ s Γ fs l) : Build.current? s = .ok (some Γ.here, s) := by
  rw [Build.current?, run_bind (a := s) (t := s) rfl]
  simp only [h.here]
  rfl

end Since

theorem currentTag_eq_ok (hs : Sound s) {g : Graph} :
    Build.currentTag { s with graph := g } = .ok (s.tag, { s with graph := g }) := by
  rw [Build.currentTag, run_bind (a := { s with graph := g }) (t := { s with graph := g }) rfl]
  cases hp : s.currentParagraph.or s.currentSection with
  | none =>
    simp only [hp, Scope.tag]
    rfl
  | some p =>
    have hlt : p < s.procedures.procedures.size := by
      obtain hp | ⟨-, hp⟩ := Option.or_eq_some_iff.1 hp
      · exact hs.currentParagraph p hp
      · exact hs.currentSection p hp
    obtain ⟨procedure, hok, hprocedure⟩ := Procedures.exists_procedure_eq_ok hlt
    simp only [hp, Scope.tag, Option.bind_some, hprocedure]
    exact run_bind (run_lift hok _) _

/-- **A new block** belongs to the sentence. -/
theorem Since.exists_newBlock (h : Since s₀ s Γ fs l) (leading : Option Instruction) :
    ∃ s', Build.newBlock leading s = .ok (Γ.size, s') ∧
      Since s₀ s' (Γ.fresh (s₀.spot leading.toList)) fs l := by
  obtain ⟨g₁, g₂, hadd, hmodify, hedit₂, -⟩ := Graph.exists_addBlock_edited s₀.tag
    h.sound.graph { declaratives := s₀.declaratives.isSome }
  have hsize₂ : g₂.size = s.graph.size + 1 := congrArg Sketch.size (hedit₂.sketch 0)
  have hdeclaratives : s.declaratives = s₀.declaratives := h.keeps _ fun _ => rfl
  rw [← h.tag, ← hdeclaratives] at hmodify
  have hfresh : ∀ {r : Except Fault (BlockId × Scope)},
      (leading.elim (Build.enlist s.graph.size) fun i => do
        Build.editGraph (Graph.appendInstruction s.graph.size i)
        Build.enlist s.graph.size) { s with graph := g₂ } = r → Build.newBlock leading s = r := by
    rintro _ rfl
    rw [Build.newBlock, run_bind (Build.editGraph_eq_ok hadd), run_bind (currentTag_eq_ok h.sound)]
    refine (run_bind (a := { s with graph := g₁ }) (t := { s with graph := g₁ }) rfl _).trans ?_
    refine (run_bind (Build.editGraph_eq_ok (s := { s with graph := g₁ }) hmodify) _).trans ?_
    cases leading <;> rfl
  -- the leading instruction
  obtain ⟨g₃, hlead, hedit₃⟩ : ∃ g₃,
      Build.newBlock leading s = Build.enlist s.graph.size { s with graph := g₃ } ∧
      s.graph.Edited s₀.tag g₃ (·.fresh (s₀.spot leading.toList)) := by
    cases leading with
    | none => exact ⟨g₂, hfresh rfl, hedit₂⟩
    | some i =>
      obtain ⟨g₃, happend, hedit₃⟩ := Graph.exists_appendInstruction_edited s₀.tag
        hedit₂.sound (b := s.graph.size) (by omega) i
      refine ⟨g₃, hfresh ?_, ?_⟩
      · exact run_bind (Build.editGraph_eq_ok (s := { s with graph := g₂ }) happend) _
      · have htrans := hedit₂.trans hedit₃
        refine { htrans with sketch := fun here => (htrans.sketch here).trans ?_ }
        simp only [Sketch.fresh, Sketch.sayAt, Scope.spot, Sketch.mk.injEq, and_true]
        funext c
        by_cases hc : c = s.graph.size <;> simp [hc, Graph.sketch]
  have hsize₃ : g₃.size = s.graph.size + 1 := congrArg Sketch.size (hedit₃.sketch 0)
  -- the sentence
  have hlist : Build.enlist s.graph.size { s with graph := g₃ } = .ok (s.graph.size, { s with
        graph := g₃
        procedures := s.procedures.list s.currentSentence [s.graph.size] }) := by
    refine (run_bind (a := { s with graph := g₃ }) (t := { s with graph := g₃ }) rfl _).trans ?_
    cases hsentence : s.currentSentence with
    | none => rfl
    | some i =>
      have hlt := h.sound.currentSentence i hsentence
      refine run_bind (a := ⟨⟩) ?_ _
      simp only [Build.editProcedures, Procedures.modifySentence, hlt, if_true]
      rfl
  have hrun : Build.newBlock leading s = .ok (s.graph.size, { s with
      graph := g₃
      procedures := s.procedures.list s.currentSentence [s.graph.size] }) := hlead.trans hlist
  have hsound := ((Build.newBlock_faultless leading).of_eq_ok h.sound hrun).1
  rw [h.size] at hrun hsound hsize₃
  refine ⟨_, hrun, hsound, h.le.trans hedit₃.le, h.setting, h.draws.trans hedit₃.draws, ?_,
    h.here, ?_, h.forks, ?_, fun b hb => ?_⟩
  · have hle : s₀.graph.size ≤ Γ.size := h.size ▸ h.le.1
    have hcount : g₃.size - s₀.graph.size = Γ.size - s₀.graph.size + 1 := by omega
    have hlast : s₀.graph.size + (Γ.size - s₀.graph.size) = Γ.size := by omega
    rw [h.procedures, h.currentSentence, Procedures.list_list, h.size, hcount,
      List.range'_1_concat, hlast]
  · rw [show (Γ.fresh (s₀.spot leading.toList)).here = Γ.here from rfl, hedit₃.sketch, h.sketch]
  · have hledger : (s.pending, g₃.groups) = s.ledger := by rw [hedit₃.groups]; rfl
    exact hledger.trans h.ledger
  · have hlt : b < Γ.size := hb.trans_le (h.size ▸ h.le.1)
    simp only [Sketch.fresh, hlt.ne, if_false]
    exact h.defaults b hb

/-! ### Edits of single blocks -/

namespace Since

theorem exists_addInstruction (h : Since s₀ s Γ fs l) (i : Instruction) :
    ∃ s', Build.addInstruction i s = .ok ((), s') ∧ Since s₀ s' (Γ.say [i]) fs l := by
  obtain ⟨g', hrun, hedit⟩ := Graph.exists_appendInstruction_edited s₀.tag h.sound.graph
    (h.sound.currentBlock _ h.here) i
  obtain ⟨s', hrun, h', -⟩ := h.exists_edit hrun hedit rfl
    fun c _ => by rw [Sketch.flags_sayAt]
  exact ⟨s', by rw [Build.addInstruction, run_bind h.current?]; exact hrun, h'⟩

/-- Only a block made since may be marked as a default. -/
theorem exists_markBlock (h : Since s₀ s Γ fs l) (hb : b < Γ.size) {f : BlockFlags}
    (hf : f.start = false) (hdefault : s₀.graph.size ≤ b ∨ f.default = false) :
    ∃ s', Build.editGraph (Graph.markBlock b f) s = .ok ((), s') ∧
      Since s₀ s' (Γ.flag b f) fs l := by
  obtain ⟨g', hrun, hedit⟩ := Graph.exists_markBlock_edited s₀.tag h.sound.graph
    (hb.trans_eq h.size.symm) hf
  obtain ⟨s', hrun, h', -⟩ := h.exists_edit hrun hedit rfl fun c hc => by
    obtain hle | hdefault := hdefault
    · simp [Sketch.flag, (hc.trans_le hle).ne]
    · by_cases hcb : c = b <;> simp [Sketch.flag, hcb, BlockFlags.union, hdefault]
  exact ⟨s', hrun, h'⟩

theorem exists_markCurrent (h : Since s₀ s Γ fs l) {f : BlockFlags} (hf : f.start = false)
    (hdefault : f.default = false) :
    ∃ s', Build.markCurrent f s = .ok ((), s') ∧ Since s₀ s' (Γ.flag Γ.here f) fs l := by
  have hlt : Γ.here < Γ.size := h.size ▸ h.sound.currentBlock _ h.here
  obtain ⟨s', hrun, h'⟩ := h.exists_markBlock hlt hf (.inr hdefault)
  exact ⟨s', by rw [Build.markCurrent, run_bind h.current?]; exact hrun, h'⟩

theorem exists_newSlot (h : Since s₀ s Γ fs l) (hc : c < Γ.size) :
    ∃ k s', Build.editGraph (Graph.newSlot c) s = .ok (k, s') ∧ Since s₀ s' Γ fs l ∧
      s'.graph.slots[k]? = some c := by
  obtain ⟨g', hrun, hedit, hk⟩ := Graph.exists_newSlot_edited s₀.tag h.sound.graph
    (hc.trans_eq h.size.symm)
  obtain ⟨s', hrun', h', rfl⟩ := h.exists_edit hrun hedit rfl fun _ _ => rfl
  exact ⟨_, s', hrun', h', hk⟩

theorem exists_addEdge (h : Since s₀ s Γ fs l) (hb : b < Γ.size) (hc : c < Γ.size) :
    ∃ k s', Build.editGraph (Graph.addEdge b c) s = .ok (k, s') ∧
      Since s₀ s' (Γ.edge b c) fs l ∧ s'.graph.slots[k]? = some c := by
  obtain ⟨g', k, hrun, hedit, hk⟩ := Graph.exists_addEdge_edited s₀.tag h.sound.graph
    (hb.trans_eq h.size.symm) (hc.trans_eq h.size.symm)
  obtain ⟨s', hrun', h', rfl⟩ := h.exists_edit hrun hedit rfl
    fun d _ => by rw [Sketch.flags_edge]
  exact ⟨_, s', hrun', h', hk⟩

theorem exists_link (h : Since s₀ s Γ fs l) (hb : b < Γ.size) {k : SlotId}
    (hk : s.graph.slots[k]? = some c) (hnew : c ∉ (Γ.chart b).next) :
    ∃ r s', Build.editGraph (Graph.link b k) s = .ok (r, s') ∧
      Since s₀ s' (Γ.edge b c) fs l := by
  obtain ⟨g', r, hrun, hedit⟩ := Graph.exists_link_edited s₀.tag h.sound.graph
    (hb.trans_eq h.size.symm) hk (by rwa [h.chart])
  obtain ⟨s', hrun, h', -⟩ := h.exists_edit hrun hedit rfl
    fun d _ => by rw [Sketch.flags_edge]
  exact ⟨_, s', hrun, h'⟩

theorem exists_appendAll (h : Since s₀ s Γ fs l) (hb : b < Γ.size) (is : List Instruction) :
    ∃ s', (forIn is PUnit.unit fun i _ => do
        Build.editGraph (Graph.appendInstruction b i)
        pure (ForInStep.yield PUnit.unit) : Build PUnit) s = .ok (⟨⟩, s') ∧
      Since s₀ s' (Γ.sayAt b is) fs l := by
  induction is generalizing s Γ with
  | nil => exact ⟨s, rfl, by simpa [Sketch.sayAt] using h⟩
  | cons i rest ih =>
    obtain ⟨g', hrun, hedit⟩ := Graph.exists_appendInstruction_edited s₀.tag h.sound.graph
      (hb.trans_eq h.size.symm) i
    obtain ⟨s₁, hrun, h', -⟩ := h.exists_edit hrun hedit rfl
      fun c _ => by rw [Sketch.flags_sayAt]
    obtain ⟨s', hrest, h''⟩ := ih h' hb
    refine ⟨s', ?_, ?_⟩
    · rw [List.forIn_cons, bind_assoc, run_bind hrun]
      exact hrest
    · have hsame : (Γ.sayAt b [i]).sayAt b rest = Γ.sayAt b (i :: rest) := by
        simp only [Sketch.sayAt, Sketch.mk.injEq, and_true]
        funext c
        by_cases hc : c = b <;> simp [hc]
      rwa [hsame] at h''

theorem exists_setBlockForAll (h : Since s₀ s Γ fs l) (is : List Instruction) :
    ∃ s', (forIn is PUnit.unit fun i _ => do
        Build.editGraph (Graph.setBlockFor i.node b)
        pure (ForInStep.yield PUnit.unit) : Build PUnit) s = .ok (⟨⟩, s') ∧
      Since s₀ s' Γ fs l := by
  induction is generalizing s with
  | nil => exact ⟨s, rfl, h⟩
  | cons i rest ih =>
    obtain ⟨g', hrun, hedit⟩ := Graph.exists_setBlockFor_edited s₀.tag h.sound.graph
      i.node b
    obtain ⟨s₁, hrun, h', -⟩ := h.exists_edit hrun hedit rfl fun _ _ => rfl
    obtain ⟨s', hrest, h''⟩ := ih h'
    refine ⟨s', ?_, h''⟩
    rw [List.forIn_cons, bind_assoc, run_bind hrun]
    exact hrest

/-! ### Forks -/

theorem inside (h : Since s₀ s Γ (f :: fs) l) : f.Inside s.graph :=
  h.sound.forks f (by simp [h.forks])

theorem inside_outer (h : Since s₀ s Γ (f :: fs) l) : ∀ f ∈ fs, f.Inside s.graph :=
  fun f' hf' => h.sound.forks f' (by simp [h.forks, hf'])

theorem exists_pushFork (h : Since s₀ s Γ fs l) (hf : f.Inside s.graph) :
    ∃ s', Build.pushFork f s = .ok ((), s') ∧ Since s₀ s' Γ (f :: fs) l := by
  refine ⟨_, rfl, ?_⟩
  rw [← h.forks]
  exact h.withForks (f :: s.forks) fun f' hf' =>
    (List.mem_cons.1 hf').elim (· ▸ hf) (h.sound.forks f')

theorem popFork?_eq (h : Since s₀ s Γ (f :: fs) l) :
    Build.popFork? s = .ok (some f, { s with forks := fs }) := by
  rw [Build.popFork?, run_bind (a := s) (t := s) rfl]
  simp only [h.forks]
  rfl

theorem exists_popFork (h : Since s₀ s Γ (f :: fs) l) :
    ∃ s', Build.popFork? s = .ok (some f, s') ∧ Since s₀ s' Γ fs l ∧ f.Inside s'.graph :=
  ⟨{ s with forks := fs }, h.popFork?_eq, h.withForks fs h.inside_outer, h.inside⟩

/-- A branch is opened in a block that was made for it. -/
theorem exists_openBranch (h : Since s₀ s Γ (f :: fs) l) (hb : b < Γ.size)
    (horigin : f.origin = some c) : ∃ k s', Build.openBranch b s = .ok ((), s') ∧
      Since s₀ s' ((Γ.edge c b).goTo b) (f.trackBranch b k :: fs) l := by
  have hb' : b < s.graph.size := hb.trans_eq h.size.symm
  obtain ⟨g', k, hadd, hedit, hk⟩ := Graph.exists_addEdge_edited s₀.tag h.sound.graph
    (h.inside.origin c horigin) hb'
  have hbranch : f.addBranch b s.graph = .ok (f.trackBranch b k, g') := by
    simp only [Fork.addBranch, horigin]
    exact run_bind hadd _
  obtain ⟨s₁, hrun, h₁, rfl⟩ := h.exists_edit hbranch hedit rfl
    fun d _ => by rw [Sketch.flags_edge]
  have hinside : (f.trackBranch b k).Inside s₁.graph := by
    have hf := h₁.inside
    refine { hf with branches := fun d hd => ?_, branchSlots := fun t ht => ?_ }
    · obtain hd | hd := List.mem_append.1 hd
      · exact hf.branches d hd
      · exact List.mem_singleton.1 hd ▸ hb'.trans_le hedit.le.1
    · obtain ht | ht := List.mem_append.1 ht
      · exact hf.branchSlots t ht
      · exact List.mem_singleton.1 ht ▸ (Array.getElem?_eq_some_iff.1 hk).1
  have h₂ := h₁.withForks (f.trackBranch b k :: fs) fun f' hf' =>
    (List.mem_cons.1 hf').elim (· ▸ hinside) (h₁.inside_outer f')
  obtain ⟨s', hcurrent, h₃⟩ := h₂.exists_setCurrent hb
  refine ⟨k, s', ?_, h₃⟩
  rw [Build.openBranch, run_bind (a := s) (t := s) rfl]
  simp only [h.forks]
  exact (run_bind hrun _).trans hcurrent

/-! ### Joins -/

/-- What a fork has left open is led to a block. -/
theorem exists_lead (h : Since s₀ s Γ fs l) (hf : f.Inside s.graph) (originToNext : Bool)
    (stop : Option BlockId) (hb : b < Γ.size)
    (hstop : ∀ e ∈ f.branches, ∀ c, Γ.chart.Reaches e c → some c ≠ stop) :
    ∃ sources s', Build.editGraph (f.close originToNext stop b) s = .ok ((), s') ∧
      Since s₀ s' (Γ.lead sources b) fs l ∧
      ∀ t, t ∈ sources ↔ t ≠ b ∧ Γ.chart.OpenEnd f.branches t ∨
        originToNext = true ∧ t ∈ f.origin := by
  obtain ⟨g', sources, hclose, hedit, hsources⟩ := Graph.exists_close_edited s₀.tag
    h.sound.graph hf originToNext stop (hb.trans_eq h.size.symm) (by rwa [h.chart])
  obtain ⟨s', hrun, h', -⟩ := h.exists_edit hclose hedit rfl
    fun c _ => by rw [Sketch.flags_lead]
  rw [h.chart] at hsources
  exact ⟨sources, s', hrun, h', hsources⟩

/-- **A join** makes a block and leads to it what a fork has left open. -/
theorem exists_joinFork (h : Since s₀ s Γ fs l) (hf : f.Inside s.graph) (originToNext : Bool) :
    ∃ sources s', Build.joinFork f originToNext s = .ok ((), s') ∧
      Since s₀ s' (Γ.join s₀.spot sources) fs l ∧
      ∀ t, t ∈ sources ↔ t ≠ Γ.size ∧ (Γ.fresh s₀.spot).chart.OpenEnd f.branches t ∨
        originToNext = true ∧ t ∈ f.origin := by
  obtain ⟨s₁, hnew, h₁⟩ := h.exists_newBlock none
  have hle : s.graph ≤ s₁.graph := by
    obtain ⟨-, hle, -⟩ := (Build.newBlock_faultless none).of_eq_ok h.sound hnew
    exact hle.1
  obtain ⟨sources, s₂, hrun, h₂, hsources⟩ := h₁.exists_lead (hf.mono hle) originToNext none
    (b := Γ.size) (Nat.lt_succ_self Γ.size) fun _ _ _ _ => by simp
  have hnot : Γ.size ∉ sources := fun hmem => by
    obtain ⟨hne, -⟩ | ⟨-, horigin⟩ := (hsources _).1 hmem
    · exact hne rfl
    · exact (h.size ▸ hf.origin _ horigin).false
  obtain ⟨s₃, hcurrent, h₃⟩ := h₂.exists_setCurrent (b := Γ.size) (Nat.lt_succ_self Γ.size)
  refine ⟨sources, s₃, ?_, Sketch.goTo_lead_fresh hnot ▸ h₃, hsources⟩
  rw [Build.joinFork, run_bind hnew]
  exact (run_bind hrun _).trans hcurrent

/-! ### Phrases -/

theorem exists_deferPhrase (h : Since s₀ s Γ (f :: fs) l) (i : Instruction) :
    ∃ s', Build.deferPhrase i s = .ok ((), s') ∧
      Since s₀ s' Γ ({ f with phrases := f.phrases ++ [i] } :: fs) l := by
  have hf := h.inside
  refine ⟨_, ?_, h.withForks ({ f with phrases := f.phrases ++ [i] } :: fs) fun f' hf' =>
    (List.mem_cons.1 hf').elim (fun he => he ▸ { hf with }) (h.inside_outer f')⟩
  rw [Build.deferPhrase, run_bind (a := s) (t := s) rfl]
  simp only [h.forks]
  rfl

theorem exists_takePhrases_zero (h : Since s₀ s Γ (f :: fs) l) :
    ∃ s', Build.takePhrases 0 s = .ok (f.phrases, s') ∧
      Since s₀ s' Γ ({ f with phrases := [] } :: fs) l := by
  have hf := h.inside
  refine ⟨_, ?_, h.withForks ({ f with phrases := [] } :: fs) fun f' hf' =>
    (List.mem_cons.1 hf').elim (fun he => he ▸ { hf with }) (h.inside_outer f')⟩
  have hforks := h.forks
  rw [Build.takePhrases]
  change Except.ok ((s.forks[0]?.map (·.phrases)).getD [],
    { s with forks := s.forks.modify 0 ({ · with phrases := [] }) }) = _
  rw [hforks]
  rfl

theorem exists_takePhrases_one {f₁ f₂ : Fork} (h : Since s₀ s Γ (f₁ :: f₂ :: fs) l) :
    ∃ s', Build.takePhrases 1 s = .ok (f₂.phrases, s') ∧
      Since s₀ s' Γ (f₁ :: { f₂ with phrases := [] } :: fs) l := by
  have hf₁ := h.inside
  have hf₂ : f₂.Inside s.graph := h.inside_outer f₂ (by simp)
  refine ⟨_, ?_, h.withForks (f₁ :: { f₂ with phrases := [] } :: fs) fun f' hf' => ?_⟩
  · have hforks := h.forks
    rw [Build.takePhrases]
    change Except.ok ((s.forks[1]?.map (·.phrases)).getD [],
      { s with forks := s.forks.modify 1 ({ · with phrases := [] }) }) = _
    rw [hforks]
    rfl
  · obtain rfl | hf' := List.mem_cons.1 hf'
    · exact hf₁
    · obtain rfl | hf' := List.mem_cons.1 hf'
      · exact { hf₂ with }
      · exact h.inside_outer f' (by simp [hf'])

/-- A branch is opened in a block that begins with the waiting phrases. -/
theorem exists_openPhraseBranch (h : Since s₀ s Γ (f :: fs) l) (horigin : f.origin = some c)
    {flags : BlockFlags} (hflags : flags.start = false) :
    ∃ k s', Build.openPhraseBranch flags s = .ok ((), s') ∧
      Since s₀ s' (Γ.branch c
        { s₀.spot f.phrases with flags := (s₀.spot).flags.union flags })
        ({ f with phrases := [] }.trackBranch Γ.size k :: fs) l := by
  have hc : c < Γ.size := h.size ▸ h.inside.origin c horigin
  obtain ⟨s₁, htake, h₁⟩ := h.exists_takePhrases_zero
  obtain ⟨s₂, hnew, h₂⟩ := h₁.exists_newBlock none
  obtain ⟨s₃, hmark, h₃⟩ := h₂.exists_markBlock (b := Γ.size) (Nat.lt_succ_self _) hflags
    (.inl (h.size ▸ h.le.1))
  obtain ⟨s₄, hsay, h₄⟩ := h₃.exists_appendAll (b := Γ.size) (Nat.lt_succ_self _) f.phrases
  obtain ⟨k, s₅, hopen, h₅⟩ := h₄.exists_openBranch (b := Γ.size) (Nat.lt_succ_self _)
    (c := c) horigin
  refine ⟨k, s₅, ?_, ?_⟩
  · rw [Build.openPhraseBranch, run_bind htake, run_bind hnew, run_bind hmark]
    exact (run_bind hsay _).trans hopen
  · have hsame : ((((Γ.fresh (s₀.spot (none : Option Instruction).toList)).flag Γ.size flags).sayAt
        Γ.size f.phrases).edge c Γ.size).goTo Γ.size = Γ.branch c
          { s₀.spot f.phrases with flags := (s₀.spot).flags.union flags } := by
      simp only [Sketch.fresh, Sketch.flag, Sketch.sayAt, Sketch.edge, Sketch.goTo, Sketch.branch,
        Scope.spot, Sketch.mk.injEq, and_true]
      funext d
      by_cases hd : d = Γ.size
      · simp [hd, hc.ne']
      · by_cases hd' : d = c <;> simp [hd, hd', hc.ne]
    rwa [← hsame]

/-- The block of a WHEN OTHER begins with nothing. -/
theorem exists_startWhenOther (h : Since s₀ s Γ (f :: fs) l) (horigin : f.origin = some c) :
    ∃ k s', Build.startWhenOther s = .ok ((), s') ∧
      Since s₀ s' (Γ.branch c { s₀.spot with flags := (s₀.spot).flags.union { default := true } })
        ({ f with phrases := [] }.trackBranch Γ.size k :: fs) l := by
  have hc : c < Γ.size := h.size ▸ h.inside.origin c horigin
  obtain ⟨s₁, htake, h₁⟩ := h.exists_takePhrases_zero
  obtain ⟨s₂, hnew, h₂⟩ := h₁.exists_newBlock none
  obtain ⟨s₃, hmark, h₃⟩ := h₂.exists_markBlock (b := Γ.size) (Nat.lt_succ_self _)
    (f := { default := true }) rfl (.inl (h.size ▸ h.le.1))
  obtain ⟨s₄, hset, h₄⟩ := h₃.exists_setBlockForAll (b := Γ.size) f.phrases
  obtain ⟨k, s₅, hopen, h₅⟩ := h₄.exists_openBranch (b := Γ.size) (Nat.lt_succ_self _)
    (c := c) horigin
  refine ⟨k, s₅, ?_, ?_⟩
  · rw [Build.startWhenOther, run_bind (a := s) (t := s) rfl]
    simp only [h.forks, List.isEmpty_cons]
    refine (run_bind htake _).trans ((run_bind hnew _).trans ((run_bind hmark _).trans ?_))
    exact (run_bind hset _).trans hopen
  · have hsame : (((Γ.fresh (s₀.spot (none : Option Instruction).toList)).flag Γ.size
        { default := true }).edge c Γ.size).goTo Γ.size = Γ.branch c
          { s₀.spot with flags := (s₀.spot).flags.union { default := true } } := by
      simp only [Sketch.fresh, Sketch.flag, Sketch.edge, Sketch.goTo, Sketch.branch,
        Scope.spot, Sketch.mk.injEq, and_true]
      funext d
      by_cases hd : d = Γ.size
      · simp [hd, hc.ne']
      · by_cases hd' : d = c <;> simp [hd, hd', hc.ne]
    rwa [← hsame]

end Since

end Scope

end CobolFlow
