import CobolFlow.Proofs.Division.Body
import CobolFlow.Proofs.Writing.Statements

/-!
# What a division writes

Headings write nothing, and sentences write their statements. So when a division has been read, all
its nodes but the headers have been written in the order of the source, no fork is open, and
nothing has been done against the protocol. The block that ends the graph comes after all blocks
into which something has been written.

## Main definitions

* `Scope.Recorded` — everything that has been read of a division is written

## Main results

* `DivisionText.passes_items` — it is true of a whole division
* `DivisionText.exists_written` — and so when the block has been added that ends the graph
-/

namespace CobolFlow

open Notification (written)

namespace Scope

/-- Everything that has been read of a division is written, and the current block has room. -/
structure Recorded (s : Scope) (is : List Instruction) : Prop where
  inDivision : s.inDivision = true
  room : ∃ b, s.currentBlock = some b ∧ b < s.graph.size ∧ (s.graph.chart b).Writable
  forks : s.forks = []
  logs : ∃ l : Log, l.map (·.2) = is ∧ s.graph.Logs l
  signed : s.Signed
  lawful : s.violations = []

variable {o : Options} {s s' : Scope} {is js : List Instruction} {item : Item}

namespace Recorded

theorem steady (h : s.Recorded is) : s.Steady := by
  obtain ⟨b, hhere, hlt, hw⟩ := h.room
  exact ⟨h.inDivision, b, .refl hhere hlt, .inl hhere, hlt, hw⟩

/-- More is written. -/
theorem proceeds (h : s.Recorded is) (h' : s.Proceeds s' js []) : s'.Recorded (is ++ js) := by
  obtain ⟨b, h', hb⟩ := h'
  refine ⟨h'.inDivision.trans h.inDivision, ⟨b, h'.here, hb.lt, hb.writable⟩, h'.forks, ?_,
    h'.signed h.signed, (congrArg (·.2.2.2) h'.stage).trans h.lawful⟩
  obtain ⟨l, rfl, hl⟩ := h.logs
  obtain ⟨e, rfl, he⟩ := h'.logs l hl
  exact ⟨l ++ e, by simp, he⟩

/-- Nothing that counts is changed. -/
theorem congr (h : s.Recorded is) (hg : s.graph.Same s'.graph) (hin : s'.inDivision = s.inDivision)
    (hhere : s'.currentBlock = s.currentBlock) (hforks : s'.forks = s.forks)
    (hviolations : s'.violations = s.violations) (hpending : s'.pending = s.pending) :
    s'.Recorded is where
  inDivision := hin.trans h.inDivision
  room := by
    obtain ⟨b, hb, hlt, hw⟩ := h.room
    exact ⟨b, hhere.trans hb, hlt.trans_le hg.size_le, by rwa [Spot.Writable, hg.nodes]⟩
  forks := hforks.trans h.forks
  logs := by
    obtain ⟨l, hl, hlogs⟩ := h.logs
    exact ⟨l, hl, hlogs.same hg⟩
  signed := h.signed.of_nodes (awaiting_congr hpending hg.groups) fun c _ => hg.nodes c
  lawful := hviolations.trans h.lawful

theorem of_desk (h : s.Recorded is) (hg : s.graph.Same s'.graph) (hdesk : s'.desk = s.desk) :
    s'.Recorded is ∧ s'.declaratives = s.declaratives := by
  simp only [desk, Scope.stage, Prod.mk.injEq] at hdesk
  obtain ⟨⟨hin, hdeclaratives, -, hviolations⟩, hhere, hforks, hpending⟩ := hdesk
  exact ⟨h.congr hg hin hhere hforks hviolations hpending, hdeclaratives⟩

/-! ### Headings -/

/-- A change of the catalog. -/
theorem editProcedures (h : s.Recorded is) {α : Type} (e : Procedures.Edit α) :
    Ensures (Build.editProcedures e) s fun _ s' =>
      s'.Recorded is ∧ s'.declaratives = s.declaratives :=
  (Build.editProcedures_ensures e).mono fun _ _ ⟨hdesk, hgraph⟩ =>
    h.of_desk (hgraph ▸ .refl _) hdesk

/-- DECLARATIVES are not nested. -/
theorem passes_enter (h : s.Recorded is) (heading : Heading) (id : NodeId)
    (hnested : heading = .declaratives → s.declaratives = none) :
    s.Passes o (Item.enter heading id).events fun s' =>
      s'.Recorded is ∧ (heading ≠ .declaratives → s'.declaratives = s.declaratives) := by
  have htag : (heading.node id).tag.isStatement = false ∧
      (heading.node id).tag ≠ .procedureDivision := by
    cases heading <;> exact ⟨rfl, nofun⟩
  obtain ⟨hheader, hdivision⟩ := htag
  refine .single (by simp [Notification.Fits, hheader])
    (enterInside_ensures h.inDivision hdivision ?_) fun _ h' => h'.1.lawful.trans h.lawful.symm
  refine .bind (Build.editGraph_ensures (Graph.recordNode_ensures _)) ?_
  rintro _ s₁ ⟨hdesk, hsame⟩
  obtain ⟨h₁, hdeclaratives⟩ := h.of_desk hsame hdesk
  rw [if_neg (by simp [hheader])]
  cases heading with
  | declaratives =>
    refine .get_bind ?_
    rw [hdeclaratives, hnested rfl]
    obtain ⟨b, hhere, -⟩ := h₁.room
    simp only [Option.isSome_none, Bool.false_eq_true, if_false, hhere]
    exact .modify ⟨h₁.congr (.refl _) rfl rfl rfl rfl rfl, fun hne => absurd rfl hne⟩
  | sectionHeader name span =>
    refine .get_bind (.bind (h₁.editProcedures _) ?_)
    rintro p s₂ ⟨h₂, hsame₂⟩
    exact .modify ⟨h₂.congr (.refl _) rfl rfl rfl rfl rfl, fun _ => hsame₂.trans hdeclaratives⟩
  | paragraphHeader name span =>
    refine .get_bind (.bind (h₁.editProcedures _) ?_)
    rintro p s₂ ⟨h₂, hsame₂⟩
    exact .modify ⟨h₂.congr (.refl _) rfl rfl rfl rfl rfl, fun _ => hsame₂.trans hdeclaratives⟩

theorem leaveDeclaratives (h : s.Recorded is) : Ensures Build.leaveDeclaratives s fun _ s' =>
    s'.Recorded is := by
  refine .bind (h.editProcedures _) ?_
  rintro root s₁ ⟨h₁, -⟩
  refine .get_bind (.modify_bind ?_)
  set s₂ : Scope := { s₁ with
    declarativeEntry := false
    currentSection := some root
    currentParagraph := none
    declaratives := none }
  have h₂ : s₂.Recorded is := h₁.congr (.refl _) rfl rfl rfl rfl rfl
  cases s₁.declaratives with
  | none => exact .pure h₂
  | some origin =>
    obtain ⟨b, hhere, hlt, -⟩ := h₂.room
    refine .bind (Wrote.refl hhere hlt).newRoom ?_
    rintro next s₃ ⟨h₃, hnext, -⟩
    have hedge : Ensures (resumeAfterDeclaratives origin next) s₃.graph
        fun _ g => s₃.graph.Same g :=
      .bind (Graph.addEdge_ensures origin next) fun _ _ hsame => .pure hsame
    refine .bind (h₃.editGraph hedge) ?_
    rintro _ s₄ ⟨h₄, hsame⟩
    refine (h₄.setCurrent (hnext.same hsame)).mono fun _ s₅ h₅ => ?_
    rw [h₂.forks] at h₅
    simpa using h₂.proceeds h₅

theorem passes_leave (h : s.Recorded is) (heading : Heading) (id : NodeId) :
    s.Passes o (Item.leave heading id).events fun s' =>
      s'.Recorded is ∧ (heading ≠ .declaratives → s'.declaratives = s.declaratives) := by
  have h₁ : ({ s with enclosing := s.enclosing.tail } : Scope).Recorded is :=
    h.congr (.refl _) rfl rfl rfl rfl rfl
  refine .single (fun heq => ?_) ?_ fun _ h' => h'.1.lawful.trans h.lawful.symm
  · cases heading <;> exact nomatch heq
  rw [Build.take, Build.leaveNode]
  refine .modify_bind (.get_bind ?_)
  change Ensures (if s.inDivision then _ else _) _ _
  rw [if_pos h.inDivision]
  cases heading with
  | declaratives => exact h₁.leaveDeclaratives.mono fun _ _ h₂ => ⟨h₂, fun hne => absurd rfl hne⟩
  | sectionHeader name span => exact .pure ⟨h₁, fun _ => rfl⟩
  | paragraphHeader name span => exact .pure ⟨h₁, fun _ => rfl⟩

/-! ### Sentences -/

theorem endSentence (h : s.Recorded is) : Ensures Build.endSentence s fun _ s' =>
    s'.Recorded is ∧ s'.declaratives = s.declaratives := by
  obtain ⟨b, hhere, hlt, hw⟩ := h.room
  refine .get_bind ?_
  simp only [h.inDivision, if_true]
  refine .bind ((Wrote.refl hhere hlt).ensureSentence ⟨.inl hhere, hlt, hw⟩) fun _ s₁ h₁ => ?_
  have hdeclaratives : s₁.declaratives = s.declaratives :=
    congrArg (·.2.1) h₁.choose_spec.1.stage
  rw [h.forks] at h₁
  have h₂ : s₁.Recorded is := by simpa using h.proceeds h₁
  exact .modify ⟨h₂.congr (.refl _) rfl rfl rfl rfl rfl, hdeclaratives⟩

theorem passes_sentence (h : s.Recorded is) (id : NodeId) (text : SentenceText) :
    s.Passes o (Item.sentence id text).events fun s' =>
      s'.Recorded (is ++ written (Item.sentence id text).events) ∧
        s'.declaratives = s.declaratives := by
  have hevents : (Item.sentence id text).events =
      ((Script.statements text).run id).1 ++ [.sentenceEnd] := rfl
  rw [hevents]
  refine .append (((Script.replay_statements text id).writes s h.steady).mono fun s₁ h₁ => ?_)
  have hdeclaratives : s₁.declaratives = s.declaratives :=
    congrArg (·.2.1) h₁.choose_spec.1.stage
  rw [h.forks] at h₁
  have h₁' := h.proceeds h₁
  refine .single h₁'.forks (h₁'.endSentence.mono ?_) fun _ h' => h'.1.lawful.trans h₁'.lawful.symm
  rintro _ s₂ ⟨h₂, hsame⟩
  exact ⟨by simpa [Notification.written, Notification.written?] using h₂, hsame.trans hdeclaratives⟩

/-! ### Divisions -/

theorem passes_item (h : s.Recorded is) (hitem : item.IsPlain) :
    s.Passes o item.events fun s' =>
      s'.Recorded (is ++ written item.events) ∧ s'.declaratives = s.declaratives := by
  cases item with
  | enter heading id =>
    have hne : heading ≠ .declaratives := by
      rintro rfl
      exact hitem
    have hnothing : written (Item.enter heading id).events = [] := by cases heading <;> rfl
    rw [hnothing, List.append_nil]
    exact (h.passes_enter heading id fun heq => absurd heq hne).mono fun s' h' => ⟨h'.1, h'.2 hne⟩
  | leave heading id =>
    have hne : heading ≠ .declaratives := by
      rintro rfl
      exact hitem
    have hnothing : written (Item.leave heading id).events = [] := rfl
    rw [hnothing, List.append_nil]
    exact (h.passes_leave heading id).mono fun s' h' => ⟨h'.1, h'.2 hne⟩
  | sentence id text => exact h.passes_sentence id text

theorem passes_items (h : s.Recorded is) {items : List Item}
    (hitems : ∀ item ∈ items, item.IsPlain) : s.Passes o (items.flatMap Item.events) fun s' =>
      s'.Recorded (is ++ written (items.flatMap Item.events)) := by
  induction items generalizing s is with
  | nil => simpa [Passes] using h
  | cons item rest ih =>
    rw [List.flatMap_cons, Notification.written_append, ← List.append_assoc]
    refine .append ((h.passes_item (hitems item (by simp))).mono fun s₁ h₁ => ?_)
    exact ih h₁.1 fun item h => hitems item (by simp [h])

/-- DECLARATIVES with what stands in them. -/
theorem passes_declaratives (h : s.Recorded is) (hnone : s.declaratives = none) (id : NodeId)
    {inside : List Item} (hinside : ∀ item ∈ inside, item.IsPlain) :
    s.Passes o
      ((Item.enter .declaratives id :: inside ++ [Item.leave .declaratives id]).flatMap Item.events)
      fun s' => s'.Recorded (is ++ written (inside.flatMap Item.events)) := by
  rw [List.cons_append, List.flatMap_cons, List.flatMap_append, List.flatMap_singleton]
  refine .append ((h.passes_enter .declaratives id fun _ => hnone).mono fun s₁ h₁ => ?_)
  refine .append ((h₁.1.passes_items hinside).mono fun s₂ h₂ => ?_)
  exact (h₂.passes_leave .declaratives id).mono fun s₃ h₃ => h₃.1

/-- The block is added that ends the graph. -/
theorem finishBlocks (h : s.Recorded is) : Ensures Build.finishBlocks s fun _ s' =>
    s'.forks = [] ∧ s'.violations = [] ∧ s'.Signed ∧ ∃ l : Log, l.map (·.2) = is ∧
      s'.graph.Logs l ∧ ∀ e ∈ l, e.1 + 1 < s'.graph.size := by
  obtain ⟨last, hhere, -⟩ := h.room
  obtain ⟨l, hl, hlogs⟩ := h.logs
  refine .modify_bind ?_
  set s₀ : Scope := { s with currentSentence := none }
  refine .bind (Build.editGraph_ensures (s := s₀) Graph.addBlock_ensures) ?_
  rintro _ s₁ ⟨hdesk₁, rfl, hsize, hsame₁⟩
  refine .bind (Build.editGraph_ensures
    (Graph.markBlock_ensures s₀.graph.size { finish := true })) ?_
  rintro _ s₂ ⟨hdesk₂, hlt, hinks⟩
  have hdesk : s₂.desk = s₀.desk := hdesk₂.trans hdesk₁
  have hnew : (s₁.graph.chart s₀.graph.size).nodes = [] := by
    rw [hsame₁.nodes, Graph.chart_of_size_le le_rfl]
  have hlogs₂ : s₂.graph.Logs l := by
    simpa [Log.entries] using (hlogs.same hsame₁).ink hinks (hlt.trans_le hinks.size_le)
      (by simp [Spot.Writable, hnew]) (.nil rfl)
  have hnodes : ∀ c, (s₂.graph.chart c).nodes = (s₀.graph.chart c).nodes := fun c => by
    rw [hinks.nodes, hsame₁.nodes]
    split <;> simp
  simp only [desk, Prod.mk.injEq] at hdesk
  obtain ⟨hstage, hcurrent, hforks, hpending⟩ := hdesk
  refine .get_bind ?_
  rw [hcurrent, show s₀.currentBlock = some last from hhere]
  refine .bind (Build.editGraph_ensures (Graph.addEdge_ensures last s₀.graph.size)) ?_
  rintro _ s₃ ⟨hdesk₃, hsame₃⟩
  simp only [desk, Prod.mk.injEq] at hdesk₃
  obtain ⟨hstage₃, -, hforks₃, hpending₃⟩ := hdesk₃
  refine .modify ⟨(hforks₃.trans hforks).trans h.forks,
    (congrArg (·.2.2.2) (hstage₃.trans hstage)).trans h.lawful, ?_, l, hl, hlogs₂.same hsame₃,
    fun e he => ?_⟩
  · exact h.signed.of_nodes (awaiting_congr (hpending₃.trans hpending)
      (hsame₃.groups.trans (hinks.groups.trans hsame₁.groups)))
      fun c _ => (hsame₃.nodes c).trans (hnodes c)
  · have hinside := hlogs.inside e he
    have hle := hinks.size_le.trans hsame₃.size_le
    exact (Nat.succ_lt_succ hinside).trans_le (hsize.symm.le.trans hle)

end Recorded

/-- The scope of a division of which nothing has been read. -/
theorem recorded_started (program : Option String) (id : NodeId) :
    (started program id).Recorded [⟨id, .procedureDivision⟩] where
  inDivision := rfl
  room := ⟨0, rfl, Nat.zero_lt_one, by simp [started, Spot.Writable, Graph.chart_nodes]⟩
  forks := rfl
  logs := by
    have hblank : ∀ b, ((started program id).graph.chart b).nodes = [] ∧
        ((started program id).graph.chart b).flags.ending = false := by
      intro b
      cases b <;> exact ⟨rfl, rfl⟩
    have hnothing : ∀ b, Log.on [(0, ⟨id, .procedureDivision⟩)] b = [] := by
      simp [Log.on, NodeTag.isListed]
    refine ⟨[(0, ⟨id, .procedureDivision⟩)], rfl, fun b => (hblank b).1.trans (hnothing b).symm,
      rfl, ?_, ?_, fun b => ?_⟩
    · simp [started, Graph.size]
    · simp
    · exact ⟨by simp [(hblank b).1], by simp [(hblank b).1, (hblank b).2]⟩
  signed := by simp [Signed, awaiting, started]
  lawful := rfl

end Scope

namespace DivisionText

/-- **A division** writes all its nodes but the headers. -/
theorem passes_items (d : DivisionText) (o : Options) (program : Option String) (id : NodeId) :
    (Scope.started program id).Passes o ((d.items.run (id + 1)).1.flatMap Item.events) fun s =>
      s.Recorded (⟨id, .procedureDivision⟩ ::
        written ((d.items.run (id + 1)).1.flatMap Item.events)) := by
  have hstart := Scope.recorded_started program id
  obtain ⟨-, hplain⟩ | ⟨-, name, span, inside, rest, hitems, hinside, hrest⟩ :=
    d.exists_items (id + 1)
  · exact hstart.passes_items hplain
  · set inside' := .enter (.sectionHeader name span) (id + 1 + 1) :: inside
    have hwritten : written ((d.items.run (id + 1)).1.flatMap Item.events) =
        written (inside'.flatMap Item.events) ++ written (rest.flatMap Item.events) := by
      rw [hitems]
      simp [Item.events, Notification.written, Notification.written?, Heading.node, Node.tag,
        NodeKind.tag, NodeTag.role]
    rw [hwritten, hitems, List.flatMap_append]
    refine .append ((hstart.passes_declaratives rfl (id + 1) hinside).mono fun s₁ h₁ => ?_)
    exact (h₁.passes_items hrest).mono fun s₂ h₂ => by simpa using h₂

/-- What is replayed of a division brings the nodes of its items. -/
theorem written_division (d : DivisionText) (id : NodeId) :
    written ((Script.division d).run id).1 =
      written ((d.items.run (id + 1)).1.flatMap Item.events) := by
  rw [run_division, List.cons_append, ← List.singleton_append, Notification.written_append,
    Notification.written_append]
  simp [Notification.written, Notification.written?, Node.tag, NodeKind.tag, NodeTag.role]

/-- **The draft of a division** holds all its nodes but the headers, below the block that ends it.
No fork is open, and nothing has been done against the protocol. -/
theorem exists_written (d : DivisionText) (o : Options) (program : Option String) (id : NodeId) :
    ∃ s chs s' l, Draft o s (d.plan program (id + 1)) chs ∧
      Build.resolvePending o s = .ok ((), s') ∧
      Build.play o ((Script.division d).run id).1 { procedures := { program } } =
        .ok ((), { s' with inDivision := false }) ∧
      (s.forks = [] ∧ s.violations = [] ∧ s.Signed) ∧
      l.map (·.2) = ⟨id, .procedureDivision⟩ :: written ((Script.division d).run id).1 ∧
      s.graph.Logs l ∧ ∀ e ∈ l, e.1 + 1 < s.graph.size := by
  obtain ⟨s₁, s, chs, s', hitems, hfinish, hdraft, hresolve, hplay⟩ :=
    d.exists_play_items o program id
  have hrecorded := (d.passes_items o program id).of_play hitems
  have hleft : ({ s₁ with enclosing := s₁.enclosing.tail } : Scope).Recorded _ :=
    hrecorded.congr (.refl _) rfl rfl rfl rfl rfl
  obtain ⟨hforks, hlawful, hsigned, l, hl, hlogs, hinside⟩ := hleft.finishBlocks _ s hfinish
  exact ⟨s, chs, s', l, hdraft, hresolve, hplay, ⟨hforks, hlawful, hsigned⟩,
    by rw [hl, written_division], hlogs, hinside⟩

end DivisionText

end CobolFlow
