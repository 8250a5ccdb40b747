import CobolFlow.Proofs.Division.Marks
import CobolFlow.Proofs.Division.Texts
import CobolFlow.Proofs.Division.Units

/-!
# Before, in and behind the DECLARATIVES

If a division has DECLARATIVES, they come first. The sentence that the division begins with stands
before them, and nothing is in it. Then come their own sentences, a passage that is no sentence
where they are left, and the sentences behind. A block is marked as one of the DECLARATIVES only if
it is made in them.

## Main definitions

* `Procedures.Stands` — on which side a sentence stands
* `Plan.Adds`, `Plan.Linked` — what is read onto a plan, and from where control falls
* `Scope.Declares` — which marks small steps leave
* `Chapter.Regions` — the chapters before, in and behind the DECLARATIVES

## Main results

* `ProgramUnit.exists_outline` — the chapters of a division, with these regions and marks
-/

namespace CobolFlow

/-! ### Sentences -/

namespace Procedures

variable {c c' : Procedures} {inside : Bool} {sentence : Option SentenceId}

/-- There is a sentence, and it stands in the DECLARATIVES or outside of them. -/
def Stands (c : Procedures) (inside : Bool) (sentence : Option SentenceId) : Prop :=
  ∃ j ∈ sentence, ∃ t, c.sentences[j]? = some t ∧ t.declaratives = inside

theorem Stands.mono (h : c.Stands inside sentence) (hkeep : c.KeepsSentences c') :
    c'.Stands inside sentence := by
  obtain ⟨j, hj, t, ht, hinside⟩ := h
  exact ⟨j, hj, t, hkeep j t ht, hinside⟩

theorem Stands.isSome (h : c.Stands inside sentence) : sentence.isSome := by
  obtain ⟨j, hj, -⟩ := h
  exact Option.isSome_of_mem hj

theorem Stands.not (h : c.Stands inside sentence) : ¬ c.Stands (!inside) sentence := by
  rintro ⟨j', hj', t', ht', hinside'⟩
  obtain ⟨j, hj, t, ht, rfl⟩ := h
  obtain rfl := Option.some.inj (hj.symm.trans hj')
  obtain rfl := Option.some.inj (ht.symm.trans ht')
  exact absurd hinside' (by simp)

theorem KeepsSentences.refl (c : Procedures) : c.KeepsSentences c := fun _ _ h => h

theorem KeepsSentences.trans {c'' : Procedures} (h : c.KeepsSentences c')
    (h' : c'.KeepsSentences c'') : c.KeepsSentences c'' := fun j t ht => h' j t (h j t ht)

end Procedures

/-! ### What is read onto a plan -/

namespace Plan

variable {p p' p'' : Plan} {item : Item} {items : List Item} {inside : Bool}

/-- Passages have been added behind, which are sentences on one side. -/
structure Adds (p p' : Plan) (inside : Bool) : Prop where
  sentences : ∃ more, p'.sentences = p.sentences ++ more ∧
    ∀ j ∈ more, p'.catalog.Stands inside j
  keeps : p.catalog.KeepsSentences p'.catalog

namespace Adds

theorem of_passages (hpassages : p'.sentences = p.sentences)
    (hkeeps : p.catalog.KeepsSentences p'.catalog) : p.Adds p' inside :=
  ⟨⟨[], by rw [hpassages, List.append_nil], by simp⟩, hkeeps⟩

theorem trans (h : p.Adds p' inside) (h' : p'.Adds p'' inside) : p.Adds p'' inside := by
  obtain ⟨more, hmore, hstands⟩ := h.sentences
  obtain ⟨more', hmore', hstands'⟩ := h'.sentences
  refine ⟨⟨more ++ more', by rw [hmore', hmore, List.append_assoc], fun j hj => ?_⟩,
    h.keeps.trans h'.keeps⟩
  exact (List.mem_append.1 hj).elim (fun hj => (hstands j hj).mono h'.keeps) (hstands' j)

theorem openSentence (p : Plan) (id : NodeId) :
    p.Adds (p.openSentence id) p.declaratives.isSome := by
  refine edit_cases_of_ensures (P := fun p' => p.Adds p' p.declaratives.isSome)
    (Build.addSentence_sentences _ _ _) (fun i c ⟨hi, hc⟩ => ?_)
    (.of_passages rfl (.refl _))
  have hnew : c.sentences[i]? = some
      { id := p.catalog.sentences.size, owner := p.currentParagraph.or p.currentSection
        declaratives := p.declaratives.isSome } := by
    rw [hi, hc, Array.getElem?_push_size]
  exact ⟨⟨[some i], List.map_append, List.forall_mem_singleton.2 ⟨i, rfl, _, hnew, rfl⟩⟩,
    .of_push hc⟩

/-- Every passage that is added is a sentence, but for the one where DECLARATIVES are left. -/
theorem step (p : Plan) (hitem : item.IsPlain) : p.Adds (p.step item) p.declaratives.isSome := by
  have hkeep : ∀ {e : Procedures.Edit ProcedureId} {go : ProcedureId → Procedures → Plan},
      (∀ c, Ensures e c fun _ c' => c'.sentences = c.sentences) →
      (∀ i c, (go i c).catalog = c ∧ (go i c).passages = p.passages) →
      p.Adds (p.edit e go) p.declaratives.isSome := fun {e go} he hgo =>
    edit_cases_of_ensures (P := fun p' => p.Adds p' p.declaratives.isSome) (he _)
      (fun i c hc => .of_passages (by rw [Plan.sentences, (hgo i c).2]; rfl)
        (.of_eq (by rw [(hgo i c).1, hc]))) (.of_passages rfl (.refl _))
  have hread : ∀ (p' : Plan) (id : NodeId) (text : SentenceText),
      p'.Adds (p'.readSentence id text) p.declaratives.isSome := fun p' id text =>
    .of_passages (sentences_readSentence p' id text) (.refl _)
  cases item with
  | sentence id text =>
    rw [Plan.step]
    split
    · exact hread p id text
    · exact (openSentence p id).trans (hread _ id text)
  | enter heading id =>
    cases heading with
    | declaratives => exact hitem.elim
    | sectionHeader name span =>
      rw [Plan.step]
      exact hkeep (Build.addSection_sentences _ _ _) fun i c => ⟨rfl, rfl⟩
    | paragraphHeader name span =>
      rw [Plan.step]
      exact hkeep (Build.addParagraph_sentences _ _ _ _) fun i c => ⟨rfl, rfl⟩
  | leave heading id =>
    cases heading with
    | declaratives => exact hitem.elim
    | sectionHeader name span => exact .of_passages rfl (.refl _)
    | paragraphHeader name span => exact .of_passages rfl (.refl _)

theorem read (p : Plan) (hitems : ∀ item ∈ items, item.IsPlain) :
    p.Adds (p.read items) p.declaratives.isSome := by
  induction items generalizing p with
  | nil => exact .of_passages rfl (.refl _)
  | cons item rest ih =>
    obtain ⟨hitem, hrest⟩ := List.forall_mem_cons.1 hitems
    have hstep := step p hitem
    exact hstep.trans (p.declaratives_step hitem ▸ ih (p.step item) hrest)

end Adds

/-- Where DECLARATIVES are left, a passage begins that is no sentence. -/
theorem sentences_leave (hp : p.declaratives.isSome) (id : NodeId) :
    (p.step (.leave .declaratives id)).sentences = p.sentences ++ [none] ∧
      p.catalog.KeepsSentences (p.step (.leave .declaratives id)).catalog ∧
      (p.step (.leave .declaratives id)).declaratives = none := by
  obtain ⟨⟨root, c⟩, hroot⟩ := p.catalog.exists_rootSection_eq_ok
  obtain ⟨k, hk⟩ := Option.isSome_iff_exists.1 hp
  have hc := Build.rootSection_sentences p.catalog root c hroot
  rw [step, edit, hroot, hk]
  exact ⟨sentences_add _ _ _, .of_eq hc, rfl⟩

end Plan

/-! ### From where control falls -/

namespace Plan

variable {p : Plan} {item : Item} {items : List Item}

/-- What is known of a passage as it begins. -/
def heads (p : Plan) : List (Option SentenceId × Bool) :=
  p.passages.map fun q => (q.sentence, q.entered)

theorem heads_readSentence (p : Plan) (id : NodeId) (text : SentenceText) :
    (p.readSentence id text).heads = p.heads := by
  rw [heads, heads, readSentence]
  obtain h | ⟨pre, q, h⟩ := List.eq_nil_or_concat p.passages
  · simp [h]
  · simp [h]

theorem length_heads (p : Plan) : p.heads.length = p.passages.length := List.length_map _

/-- Control falls into a sentence from the passage before it, unless the sentence is entered from
outside. It falls from the first passage into the one behind the DECLARATIVES. -/
structure Linked (p : Plan) : Prop where
  falls : ∀ e ∈ p.falls, e.2 = e.1 + 1 ∧ (∃ j, p.heads[e.2]? = some (some j, false)) ∨
    (e.1 = 0 ∧ 0 < e.2) ∧ ∃ entered, p.heads[e.2]? = some (none, entered)
  declaratives : ∀ k ∈ p.declaratives, k = 0
  nonempty : p.passages ≠ []

namespace Linked

theorem congr (h : p.Linked) {p' : Plan} (hheads : p'.heads = p.heads)
    (hfalls : p'.falls = p.falls) (hdeclaratives : ∀ k ∈ p'.declaratives, k = 0) : p'.Linked where
  falls := by rw [hfalls, hheads]; exact h.falls
  declaratives := hdeclaratives
  nonempty := by
    have hne : p.heads ≠ [] := fun hnil => h.nonempty (List.map_eq_nil_iff.1 hnil)
    rw [← hheads] at hne
    exact fun hnil => hne (List.map_eq_nil_iff.2 hnil)

/-- Control falls onwards only. -/
theorem lt_of_mem_falls (h : p.Linked) {e : ℕ × ℕ} (he : e ∈ p.falls) :
    e.1 < e.2 ∧ e.2 < p.passages.length := by
  have hlt : ∀ {x}, p.heads[e.2]? = some x → e.2 < p.passages.length := fun hx =>
    p.length_heads ▸ (List.getElem?_eq_some_iff.1 hx).1
  obtain ⟨hsucc, j, hj⟩ | ⟨⟨hzero, hpos⟩, entered, hj⟩ := h.falls e he
  · exact ⟨hsucc ▸ Nat.lt_succ_self _, hlt hj⟩
  · exact ⟨hzero ▸ hpos, hlt hj⟩

/-- A passage is added into which control falls from the last, or from the first. -/
theorem add (h : p.Linked) {origin : Option ℕ} {q : Passage}
    (horigin : ∀ k ∈ origin, p.passages.length = k + 1 ∧ q.sentence.isSome ∧ q.entered = false ∨
      k = 0 ∧ q.sentence = none) : (p.add origin q).Linked where
  falls e he := by
    have hheads : (p.add origin q).heads = p.heads ++ [(q.sentence, q.entered)] := List.map_append
    have hold : ∀ {x}, p.heads[e.2]? = some x → (p.add origin q).heads[e.2]? = some x :=
      fun hx => by
      rw [hheads, List.getElem?_append_left (List.getElem?_eq_some_iff.1 hx).1, hx]
    obtain he | he := List.mem_append.1 he
    · exact (h.falls e he).imp (And.imp_right fun ⟨j, hj⟩ => ⟨j, hold hj⟩)
        (And.imp_right fun ⟨entered, hentered⟩ => ⟨entered, hold hentered⟩)
    · obtain ⟨k, hk, rfl⟩ := Option.map_eq_some_iff.1 (Option.mem_toList.1 he)
      have hnew : (p.add origin q).heads[p.passages.length]? = some (q.sentence, q.entered) := by
        rw [hheads, ← p.length_heads, List.getElem?_concat_length]
      obtain ⟨hlength, hsome, hentered⟩ | ⟨hzero, hnone⟩ := horigin k hk
      · obtain ⟨j, hj⟩ := Option.isSome_iff_exists.1 hsome
        exact .inl ⟨hlength, j, by rw [hnew, hj, hentered]⟩
      · exact .inr ⟨⟨hzero, List.length_pos_iff.2 h.nonempty⟩, q.entered, by rw [hnew, hnone]⟩
  declaratives := h.declaratives
  nonempty := by simp [Plan.add]

theorem openSentence (h : p.Linked) (id : NodeId) : (p.openSentence id).Linked := by
  refine edit_cases _ (fun i c => ?_) h
  have hcatalog : Linked { p with catalog := c, begun := true } := h.congr rfl rfl h.declaratives
  refine (hcatalog.add fun k hk => .inl ?_).congr rfl rfl h.declaratives
  change (if p.declarativeEntry then none else p.last?) = some k at hk
  cases hentry : p.declarativeEntry with
  | true => simp [hentry] at hk
  | false =>
    rw [hentry, if_neg Bool.false_ne_true, last?] at hk
    split at hk
    · cases hk
    · next hempty =>
      have hpos : 0 < p.passages.length := by
        rw [List.isEmpty_iff] at hempty
        exact List.length_pos_iff.2 hempty
      obtain rfl := Option.some.inj hk
      exact ⟨(Nat.succ_pred_eq_of_pos hpos).symm, rfl, rfl⟩

theorem step (h : p.Linked) (hitem : item.IsPlain) : (p.step item).Linked := by
  cases item with
  | sentence id text =>
    rw [Plan.step]
    split
    · exact h.congr (heads_readSentence _ _ _) rfl h.declaratives
    · exact (h.openSentence id).congr (heads_readSentence _ _ _) rfl
        (h.openSentence id).declaratives
  | enter heading id =>
    cases heading with
    | declaratives => exact hitem.elim
    | sectionHeader name span =>
      rw [Plan.step]
      exact edit_cases _ (fun i c => h.congr rfl rfl h.declaratives) h
    | paragraphHeader name span =>
      rw [Plan.step]
      exact edit_cases _ (fun i c => h.congr rfl rfl h.declaratives) h
  | leave heading id =>
    cases heading with
    | declaratives => exact hitem.elim
    | sectionHeader name span => exact h
    | paragraphHeader name span => exact h

theorem read (h : p.Linked) (hitems : ∀ item ∈ items, item.IsPlain) : (p.read items).Linked := by
  induction items generalizing p with
  | nil => exact h
  | cons item rest ih =>
    obtain ⟨hitem, hrest⟩ := List.forall_mem_cons.1 hitems
    exact ih (h.step hitem) hrest

theorem enterDeclaratives (h : p.Linked) (hp : p.passages.length ≤ 1) (id : NodeId) :
    (p.step (.enter .declaratives id)).Linked := by
  refine h.congr rfl rfl fun k hk => ?_
  change p.last? = some k at hk
  rw [last?] at hk
  split at hk
  · cases hk
  · obtain rfl := Option.some.inj hk
    omega

theorem leaveDeclaratives (h : p.Linked) (id : NodeId) :
    (p.step (.leave .declaratives id)).Linked := by
  refine edit_cases _ (fun root c => ?_) h
  dsimp only
  split
  · next origin hp =>
    have hcatalog : Linked { p with
        catalog := c, declarativeEntry := false, currentSection := some root
        currentParagraph := none, declaratives := none } := h.congr rfl rfl nofun
    exact hcatalog.add fun k hk => .inr ⟨Option.some.inj hk ▸ h.declaratives origin hp, rfl⟩
  · exact h.congr rfl rfl nofun

end Linked

end Plan

theorem DivisionText.linked_plan (d : DivisionText) (program : Option String) (id : NodeId) :
    (d.plan program id).Linked := by
  have hstart : (Plan.start program).Linked := by
    rw [Plan.start_eq]
    exact ⟨by simp, nofun, List.cons_ne_nil _ _⟩
  rw [plan]
  obtain ⟨-, hplain⟩ | ⟨-, name, span, inside, rest, hitems, hinside, hrest⟩ := d.exists_items id
  · exact hstart.read hplain
  · have hopened := hstart.enterDeclaratives (by rw [Plan.start_eq]; rfl) id
    rw [hitems, Plan.read, List.foldl_append, List.foldl_append]
    exact ((hopened.read hinside).leaveDeclaratives id).read hrest

/-! ### The marks of blocks -/

/-- Which blocks a part of a build puts into the DECLARATIVES: none that was there, and none at all
unless they are open in the end. -/
structure Scope.Declares (s s' : Scope) : Prop where
  size_le : s.graph.size ≤ s'.graph.size
  old : ∀ b < s.graph.size, s'.graph.IsDeclared b → s.graph.IsDeclared b
  outside : s'.declaratives = none → ∀ b, s'.graph.IsDeclared b → s.graph.IsDeclared b
  opened : s.declaratives.isSome → s'.declaratives.isSome

namespace Graph

variable {g g' : Graph} {b : BlockId}

theorem IsDeclared.of_modify {c : BlockId} {f : Block → Block}
    (h : ({ g with blocks := g.blocks.modify c f } : Graph).IsDeclared b)
    (hf : ∀ block, (f block).flags.declaratives = block.flags.declaratives) : g.IsDeclared b := by
  obtain ⟨block, hb, hdeclared⟩ := h
  rw [Array.getElem?_modify] at hb
  split at hb
  · obtain ⟨block', hb', rfl⟩ := Option.map_eq_some_iff.1 hb
    exact ⟨block', hb', (hf block').symm.trans hdeclared⟩
  · exact ⟨block, hb, hdeclared⟩

theorem IsDeclared.of_grow {flags : BlockFlags} {tag : Option String}
    (h : (g.grow flags tag).IsDeclared b) :
    g.IsDeclared b ∨ b = g.size ∧ flags.declaratives = true := by
  obtain ⟨block, hb, hdeclared⟩ := h
  rw [grow, Array.getElem?_push] at hb
  split at hb
  · next heq =>
    obtain rfl := Option.some.inj hb
    exact .inr ⟨heq, hdeclared⟩
  · exact .inl ⟨block, hb, hdeclared⟩

theorem IsDeclared.lt (h : g.IsDeclared b) : b < g.size := by
  obtain ⟨block, hb, -⟩ := h
  exact (Array.getElem?_eq_some_iff.1 hb).1

/-- No step of the graph alone puts a block into the DECLARATIVES. -/
theorem Step.of_isDeclared (h : g.Step g') : g.size ≤ g'.size ∧
    ∀ b, g'.IsDeclared b → g.IsDeclared b := by
  have hsize : ∀ (c : BlockId) (f : Block → Block), (g.blocks.modify c f).size = g.blocks.size :=
    fun c f => Array.size_modify
  cases h with
  | note roots owners nodes division compound => exact ⟨le_rfl, fun b hb => hb⟩
  | write c is m hm =>
    refine ⟨(hsize c _).ge, fun b hb => hb.of_modify fun block => ?_⟩
    simp [BlockFlags.union, hm.2.1]
  | slot c => exact ⟨le_rfl, fun b hb => hb⟩
  | link c k hk => exact ⟨(hsize c _).ge, fun b hb => hb.of_modify fun block => rfl⟩
  | edge c d => exact ⟨(hsize c _).ge, fun b hb => hb.of_modify fun block => rfl⟩
  | call c node range hc => exact ⟨(hsize c _).ge, fun b hb => hb.of_modify fun block => rfl⟩
  | finish =>
    refine ⟨(g.size_grow _ _).ge.trans' (Nat.le_succ _), fun b hb => ?_⟩
    exact hb.of_grow.resolve_right fun hnew => by cases hnew.2

end Graph

namespace Scope.Declares

variable {s s' s'' : Scope}

theorem of_graph (hgraph : s'.graph = s.graph) (hdeclaratives : s.declaratives.isSome →
    s'.declaratives.isSome) : s.Declares s' where
  size_le := hgraph ▸ le_rfl
  old _ _ hb := hgraph ▸ hb
  outside _ _ hb := hgraph ▸ hb
  opened := hdeclaratives

theorem trans (h : s.Declares s') (h' : s'.Declares s'') : s.Declares s'' where
  size_le := h.size_le.trans h'.size_le
  old b hb hdeclared := h.old b hb (h'.old b (hb.trans_le h.size_le) hdeclared)
  outside hnone b hdeclared := by
    have hnone' : s'.declaratives = none := by
      by_contra hne
      simpa [hnone] using h'.opened (Option.isSome_iff_ne_none.2 hne)
    exact h.outside hnone' b (h'.outside hnone b hdeclared)
  opened hopen := h'.opened (h.opened hopen)

theorem of_step (h : s.Step s') : s.Declares s' := by
  cases h with
  | graph hg =>
    obtain ⟨hsize, hdeclared⟩ := hg.of_isDeclared
    exact ⟨hsize, fun b _ => hdeclared b, fun _ => hdeclared, fun hopen => hopen⟩
  | aside hgraph _ hdeclaratives _ =>
    exact of_graph hgraph fun hopen => hdeclaratives ▸ hopen
  | grow tag =>
    refine ⟨(s.graph.size_grow _ _).ge.trans' (Nat.le_succ _), fun b hlt hb => ?_,
      fun hnone b hb => ?_, fun hopen => hopen⟩
    · exact hb.of_grow.resolve_right fun hnew => hlt.ne hnew.1
    · have hnone : s.declaratives = none := hnone
      exact hb.of_grow.resolve_right fun hnew => by simp [hnone] at hnew
  | declare hc => exact of_graph rfl fun hopen => hopen
  | openSentence hc => exact of_graph rfl fun hopen => hopen
  | entry i k => exact of_graph rfl fun hopen => hopen
  | enterDeclaratives b => exact of_graph rfl fun _ => rfl

/-- What is made of small steps. -/
theorem of_steps {x : Build Unit} (hx : Within Step x) (s : Scope) :
    Ensures x s fun _ s' => s.Declares s' := fun _ s' hrun => by
  have hsteps := hx s () s' hrun
  clear hrun
  induction hsteps with
  | refl => exact of_graph rfl fun hopen => hopen
  | tail _ hstep ih => exact ih.trans (of_step hstep)

end Scope.Declares

/-- No sentence is open where DECLARATIVES are left, and no block is put into them. -/
theorem Build.leaveDeclaratives_declares (s : Scope) : Ensures leaveDeclaratives s fun _ s' =>
    Scope.Declares { s with declaratives := none } s' := by
  refine .bind (P := fun _ s₁ => s₁.graph = s.graph) (fun root s₁ hrun => ?_) fun root s₁ h₁ => ?_
  · obtain ⟨c, -, rfl⟩ := exists_of_editProcedures_eq_ok hrun
    rfl
  refine .get_bind (.modify_bind ?_)
  set s₂ : Scope := { s₁ with
    declarativeEntry := false, currentSection := some root, currentParagraph := none
    declaratives := none } with hs₂
  have h₂ : Scope.Declares { s with declaratives := none } s₂ := .of_graph h₁ fun hopen => hopen
  refine Ensures.mono (P := fun _ s' => s₂.Declares s') ?_ fun _ s' h' => h₂.trans h'
  refine Scope.Declares.of_steps ?_ s₂
  split
  · exact .bind (newBlock_steps none) fun next =>
      .bind (editGraph_steps (.bind (Graph.addEdge_steps _ next) fun _ => .pure _)) fun _ =>
        setCurrent_steps next
  · exact .pure _

theorem Build.play_declares (o : Options) {items : List Item}
    (hitems : ∀ item ∈ items, item.IsPlain)
    (s : Scope) : Ensures (play o (items.flatMap Item.events)) s fun _ s' => s.Declares s' := by
  refine Scope.Declares.of_steps (play_steps o fun e he => ?_) s
  obtain ⟨item, hitem, he⟩ := List.mem_flatMap.1 he
  exact Item.isInside_events (hitems item hitem) e he

/-! ### The chapters of a division -/

namespace Outline

variable {o : Options} {s : Scope} {p : Plan} {chs : List Chapter}

theorem sentences (h : Outline o s p chs) : chs.map (·.sentence) = p.sentences := by
  rw [Plan.sentences, ← h.passages, List.map_map]
  rfl

/-- Where DECLARATIVES are left, a chapter of a single block is begun. -/
theorem exists_leave_chapter (h : Outline o s p chs) (hclosed : p.begun = false)
    (hopened : p.declaratives.isSome) (id : NodeId) : ∃ s' k,
      Build.take o (.leave (Heading.declaratives.node id)) s = .ok ((), s') ∧
      Outline o s' (p.step (.leave .declaratives id)) (chs ++ [k]) ∧ k.sentence = none ∧
      k.start = s.graph.size ∧ s'.graph.size = s.graph.size + 1 ∧
      ∀ b, s'.graph.IsDeclared b → s.graph.IsDeclared b := by
  obtain ⟨hsentences, -, hleft⟩ := Plan.sentences_leave hopened id
  obtain ⟨s', chs', hplay, h', hprefix⟩ :=
    h.exists_item (.leave .declaratives id) (Plan.allows_of_closed hclosed)
  obtain ⟨l, rfl⟩ := hprefix hclosed
  have hsentences' := h'.sentences
  rw [hsentences, ← h.sentences, List.map_append, List.append_cancel_left_eq] at hsentences'
  obtain ⟨k, rfl, hk⟩ := List.map_eq_singleton_iff.1 hsentences'
  have hat : (chs ++ [k])[chs.length]? = some k := List.getElem?_concat_length
  have hstart : k.start = s.graph.size := by
    rw [h'.chapters.contiguous hat, List.take_left, h.chapters.size]
  have hdrawn := h'.chapters.drawn k (List.mem_of_getElem? hat)
  rw [Item.events, Build.play_singleton] at hplay
  refine ⟨s', k, hplay, h', hk, hstart, ?_, fun b hb => ?_⟩
  · rw [h'.chapters.size, Chapter.extent_append, hdrawn.idle hk, hdrawn.single, hstart]
  · have hdeclares : Ensures (Build.take o (.leave (Heading.declaratives.node id))) s
        fun _ s' => Scope.Declares { s with declaratives := none } s' := by
      refine .modify_bind (.get_bind ?_)
      rw [if_pos h.inDivision]
      have hsame : Scope.Declares { s with declaratives := none }
          { s with declaratives := none, enclosing := s.enclosing.tail } :=
        .of_graph rfl fun hopen => hopen
      exact (Build.leaveDeclaratives_declares _).mono fun _ s₂ h₂ => hsame.trans h₂
    have hnone : s'.declaratives = none := by rw [h'.declaratives, hleft]; rfl
    exact (hdeclares () s' hplay).outside hnone b hb

/-- Once the first sentence is closed, what is read adds sentences behind the chapters. -/
theorem exists_play_plain (h : Outline o s p chs) (hclosed : p.begun = false) {items : List Item}
    (hitems : ∀ item ∈ items, item.IsPlain) : ∃ s' more,
      Build.play o (items.flatMap Item.events) s = .ok ((), s') ∧
      Outline o s' (p.read items) (chs ++ more) ∧ s.Declares s' ∧
      ∀ c ∈ more, (p.read items).catalog.Stands p.declaratives.isSome c.sentence := by
  obtain ⟨s', chs', hplay, h', hprefix⟩ := h.exists_play items (Plan.allowsAll_of_closed hclosed _)
  obtain ⟨more, rfl⟩ := hprefix hclosed
  obtain ⟨added, hadded, hstands⟩ := (Plan.Adds.read p hitems).sentences
  have hsentences := h'.sentences
  rw [hadded, ← h.sentences, List.map_append, List.append_cancel_left_eq] at hsentences
  exact ⟨s', more, hplay, h', Build.play_declares o hitems s () s' hplay,
    fun c hc => hstands _ (hsentences ▸ List.mem_map_of_mem hc)⟩

end Outline

/-- The chapters before, in and behind the DECLARATIVES. -/
structure Chapter.Regions (c : Procedures) (chs : List Chapter) (first : Chapter)
    (inside : List Chapter) (resumed : Chapter) (behind : List Chapter) : Prop where
  eq : chs = first :: inside ++ resumed :: behind
  silent : first.marks = []
  first : c.Stands false first.sentence
  inside : ∀ d ∈ inside, c.Stands true d.sentence
  resumed : resumed.sentence = none
  behind : ∀ d ∈ behind, c.Stands false d.sentence

/-- The block is the one that is made where DECLARATIVES are left. -/
def ProgramUnit.Resumes (o : Options) (u : ProgramUnit) (b : BlockId) : Prop :=
  ∃ before n after s s', u.events = before ++ .leave n :: after ∧ n.kind = .declaratives ∧
    Build.play o before { procedures := { program := u.program } } = .ok ((), s) ∧
    Build.take o (.leave n) s = .ok ((), s') ∧ s.graph.size = b ∧ s'.graph.size = b + 1

/-- The DECLARATIVES are read up to their end. The sentence that stands before them is closed by the
header of their first section, and nothing is in it. -/
theorem Outline.exists_play_within (o : Options) (program : Option String) (id : NodeId)
    (name : String) (span : Span) {inside : List Item} (hinside : ∀ item ∈ inside, item.IsPlain)
    {before : List Item} (hbefore : before = .enter .declaratives (id + 1) ::
      .enter (.sectionHeader name span) (id + 1 + 1) :: inside) : ∃ s first among,
      Build.play o (before.flatMap Item.events) (Scope.started program id) = .ok ((), s) ∧
      Outline o s ((Plan.start program).read before) (first :: among) ∧ first.marks = [] ∧
      ((Plan.start program).read before).begun = false ∧
      ((Plan.start program).read before).declaratives.isSome ∧
      ((Plan.start program).read before).catalog.Stands false first.sentence ∧
      (∀ c ∈ among, ((Plan.start program).read before).catalog.Stands true c.sentence) ∧
      ∀ b, s.graph.IsDeclared b → ∃ c ∈ among, c.Has b := by
  have hstart := Outline.start o program id
  set p₀ := Plan.start program with hp₀
  have hfirst : p₀.catalog.Stands false (some 0) := by
    rw [hp₀, Plan.start_eq]
    exact ⟨0, rfl, _, rfl, rfl⟩
  obtain ⟨s₁, hplay₁, h₁⟩ := hstart.exists_enter .declaratives (id + 1)
  obtain ⟨s₂, hplay₂, h₂⟩ := h₁.exists_enter (.sectionHeader name span) (id + 1 + 1)
  set p₁ := p₀.step (.enter .declaratives (id + 1)) with hp₁
  set p₂ := p₁.step (.enter (.sectionHeader name span) (id + 1 + 1)) with hp₂
  have hheader : (Item.enter (.sectionHeader name span) (id + 1 + 1)).IsPlain := trivial
  have hadds₂ : p₁.Adds p₂ p₁.declaratives.isSome := .step p₁ hheader
  have hopened₂ : p₂.declaratives.isSome := by
    rw [hp₂, p₁.declaratives_step hheader, hp₁, hp₀, Plan.start_eq]
    rfl
  obtain ⟨s₃, among, hplay₃, h₃, hdeclares, hstands⟩ := h₂.exists_play_plain rfl hinside
  have hkeeps := (Plan.Adds.read p₂ hinside).keeps
  have hread : p₀.read before = p₂.read inside := by rw [hbefore]; rfl
  rw [hread, hbefore, List.flatMap_cons, List.flatMap_cons, Build.play_append hplay₁,
    Build.play_append hplay₂]
  set first : Chapter := .blank
    { sentence := some 0, id := 0, text := [], entered := false, tag := none }
    (Scope.started program id).sketch
  rw [hopened₂] at hstands
  refine ⟨s₃, first, among, hplay₃, h₃, rfl, Plan.begun_read rfl inside,
    by rwa [p₂.declaratives_read hinside], (hfirst.mono hadds₂.keeps).mono hkeeps, hstands,
    fun b hb => ?_⟩
  have henter : ∀ (heading : Heading) (id : NodeId) (s s' : Scope),
      Build.play o (Item.enter heading id).events s = .ok ((), s') → s.Declares s' :=
    fun heading id s s' => Scope.Declares.of_steps (Build.play_steps o fun e he => by
      obtain rfl := List.mem_singleton.1 he
      exact Item.isInside_enter heading id) s () s'
  have hsize : s₂.graph.size = first.last.size := h₂.chapters.size
  have hge : first.last.size ≤ b := by
    by_contra hlt
    have hlt : b < first.last.size := Nat.lt_of_not_le hlt
    obtain ⟨block, hblock, hdeclared⟩ := ((henter _ _ _ _ hplay₁).trans
      (henter _ _ _ _ hplay₂)).old b hlt (hdeclares.old b (hsize ▸ hlt) hb)
    obtain rfl := Array.mem_singleton.1 (Array.mem_of_getElem? hblock)
    exact nomatch hdeclared
  obtain ⟨i, c, hi, hhas⟩ := h₃.chapters.exists_has (h₃.chapters.size ▸ hb.lt)
  obtain rfl | hc := List.mem_cons.1 (List.mem_of_getElem? hi)
  · exact absurd hhas.2 (Nat.not_lt.2 hge)
  · exact ⟨c, hc, hhas⟩

/-- The chapters of a division. If there are DECLARATIVES, they are its regions, and the chapter
behind them is begun where they are left. -/
theorem ProgramUnit.exists_outline (u : ProgramUnit) (o : Options) {d : DivisionText}
    (hd : u.division = some d) : ∃ t chs,
      Build.play o ((d.items.run (u.id + 1)).1.flatMap Item.events)
        (Scope.started u.program u.id) = .ok ((), t) ∧
      Outline o t (d.plan u.program (u.id + 1)) chs ∧
      (∀ b, t.graph.IsDeclared b → ∃ c ∈ chs, c.Has b ∧
        (d.plan u.program (u.id + 1)).catalog.Stands true c.sentence) ∧
      ((d.declaratives = [] ∧
          ∀ c ∈ chs, (d.plan u.program (u.id + 1)).catalog.Stands false c.sentence) ∨
        d.declaratives ≠ [] ∧ ∃ first inside resumed behind, Chapter.Regions
          (d.plan u.program (u.id + 1)).catalog chs first inside resumed behind ∧
            u.Resumes o resumed.start) := by
  obtain ⟨hdeclaratives, hitems⟩ | ⟨hdeclaratives, name, span, inside, rest, hitems, hinside,
    hrest⟩ := d.exists_items (u.id + 1)
  · obtain ⟨t, chs, hplay, houtline, -⟩ := (Outline.start o u.program u.id).exists_play _
      (d.allowsAll_items u.program (u.id + 1))
    set p₀ := Plan.start u.program with hp₀
    obtain ⟨hsentences₀, hdeclaratives₀, hfirst⟩ : p₀.sentences = [some 0] ∧
        p₀.declaratives = none ∧ p₀.catalog.Stands false (some 0) := by
      rw [hp₀, Plan.start_eq]
      exact ⟨rfl, rfl, 0, rfl, _, rfl, rfl⟩
    have hadds := Plan.Adds.read p₀ hitems
    obtain ⟨more, hmore, hstands⟩ := hadds.sentences
    rw [hdeclaratives₀] at hstands
    refine ⟨t, chs, hplay, houtline, fun b hb => ?_, .inl ⟨hdeclaratives, fun c hc => ?_⟩⟩
    · have hnone : t.declaratives = none := by
        rw [houtline.declaratives, p₀.declaratives_read hitems, hdeclaratives₀]
        rfl
      obtain ⟨block, hblock, hdeclared⟩ :=
        (Build.play_declares o hitems _ () t hplay).outside hnone b hb
      obtain rfl := Array.mem_singleton.1 (Array.mem_of_getElem? hblock)
      exact nomatch hdeclared
    · have hmem : c.sentence ∈ chs.map (·.sentence) := List.mem_map_of_mem hc
      rw [houtline.sentences, hmore, hsentences₀] at hmem
      obtain hmem | hmem := List.mem_append.1 hmem
      · rw [List.mem_singleton.1 hmem]
        exact hfirst.mono hadds.keeps
      · exact hstands _ hmem
  · obtain ⟨-, hinside⟩ := List.forall_mem_cons.1 hinside
    obtain ⟨s₁, first, among, hplay₁, h₁, hsilent, hclosed, hopened, hfirst, hamong, hdeclared⟩ :=
      Outline.exists_play_within o u.program u.id name span hinside rfl
    set before := Item.enter .declaratives (u.id + 1) ::
      .enter (.sectionHeader name span) (u.id + 1 + 1) :: inside
    set p := (Plan.start u.program).read before with hp
    obtain ⟨-, hkeeps, hleft⟩ := Plan.sentences_leave hopened (u.id + 1)
    obtain ⟨s₂, k, htake₂, h₂, hk, hstart, hsize, hold⟩ :=
      h₁.exists_leave_chapter hclosed hopened (u.id + 1)
    set p' := p.step (.leave .declaratives (u.id + 1)) with hp'
    obtain ⟨s₃, behind, hplay₃, h₃, hdeclares, hbehind⟩ :=
      h₂.exists_play_plain (Plan.begun_step hclosed _) hrest
    rw [hleft] at hbehind
    have hkeeps' := (Plan.Adds.read p' hrest).keeps
    have hplan : d.plan u.program (u.id + 1) = p'.read rest := by
      rw [DivisionText.plan, hitems, Plan.read, List.foldl_append, List.foldl_append]
      rfl
    rw [hplan]
    have hamong' : ∀ c ∈ among, (p'.read rest).catalog.Stands true c.sentence := fun c hc =>
      ((hamong c hc).mono hkeeps).mono hkeeps'
    refine ⟨s₃, _, ?_, h₃, fun b hb => ?_, .inr ⟨hdeclaratives, first, among, k, behind,
      ⟨by simp, hsilent, (hfirst.mono hkeeps).mono hkeeps', hamong', hk, hbehind⟩, ?_⟩⟩
    · rw [hitems, List.flatMap_append, List.flatMap_append, List.flatMap_singleton,
        List.append_assoc, Build.play_append hplay₁]
      exact (Build.play_cons htake₂).trans hplay₃
    · have hnone : s₃.declaratives = none := by
        rw [h₃.declaratives, p'.declaratives_read hrest, hleft]
        rfl
      obtain ⟨c, hc, hhas⟩ := hdeclared b (hold b (hdeclares.outside hnone b hb))
      exact ⟨c, by simp [hc], hhas, hamong' c hc⟩
    · set n := Heading.declaratives.node (u.id + 1) with hn
      refine ⟨.enter { id := u.id, kind := .procedureDivision } :: before.flatMap Item.events, n,
        rest.flatMap Item.events ++ [.leave { id := u.id, kind := .procedureDivision }], s₁, s₂,
        ?_, rfl, (Build.play_cons (Build.take_division o _ _)).trans hplay₁, htake₂, hstart.symm,
        by rw [hsize, hstart]⟩
      rw [ProgramUnit.events, hd]
      change ((Script.division d).run u.id).1 = _
      rw [DivisionText.run_division, hitems]
      simp [Item.events, hn]

end CobolFlow
