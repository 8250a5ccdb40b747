import CobolFlow.Proofs.Division.Chapters

/-!
# A division follows its plan

Reading the items of a division one by one draws the chapters of its plan, whatever the lowering:
the catalog is the plan's but for blocks and edges, and every sentence is a chapter that does what
its statements mean.

## Main definitions

* `Outline` — a scope that has followed a plan

## Main results

* `Outline.exists_play` — the items of a division draw the plan that they are read to
-/

namespace CobolFlow

open Scope

/-- The scope has followed the plan, and has drawn these chapters. -/
structure Outline (o : Options) (s : Scope) (p : Plan) (chs : List Chapter) : Prop where
  sound : Sound s
  inDivision : s.inDivision = true
  forks : s.forks = []
  problems : s.problems = []
  chapters : Chapters o s chs p.falls
  nonempty : chs ≠ []
  passages : chs.map (·.toPassage) = p.passages
  catalog : s.procedures.erase = p.catalog
  currentSection : s.currentSection = p.currentSection
  currentParagraph : s.currentParagraph = p.currentParagraph
  declaratives : s.declaratives = p.declaratives.bind fun k => (chs[k]?).map (·.stop)
  declaratives_lt : ∀ k ∈ p.declaratives, k < chs.length
  declarativeEntry : s.declarativeEntry = p.declarativeEntry
  closed : p.begun = false → s.currentSentence = none
  opened : p.begun = true → ∃ pre c, chs = pre ++ [c] ∧ c.first = s.sketch ∧ c.last = s.sketch ∧
    c.marks = [] ∧ c.tag = s.tag ∧ s.currentSentence = c.sentence ∧ c.sentence.isSome

section Opened

variable {s : Scope} {c : Procedures} {q : Passage}

theorem setting_opened (s : Scope) (c : Procedures) : (s.opened c).setting =
    { s.setting with
      currentSentence := some s.procedures.sentences.size, declarativeEntry := false } := by
  refine opened_cases c (P := fun t => t.setting = _) (fun _ => rfl) (fun _ _ => rfl)
    fun _ _ _ => rfl

theorem tag_opened (s : Scope) (c : Procedures) :
    (s.opened c).tag = ({ s with procedures := c } : Scope).tag := by
  refine opened_cases c (P := fun t => t.tag = _) (fun _ => rfl) (fun _ _ => rfl) fun _ _ _ => rfl

theorem sentences_begun (hc : c.sentences = s.procedures.sentences.push
      { id := s.procedures.sentences.size, owner := s.currentParagraph.or s.currentSection
        declaratives := s.declaratives.isSome }) :
    (s.begun c).procedures.sentences = s.procedures.sentences.push
      { id := s.procedures.sentences.size, owner := s.currentParagraph.or s.currentSection
        declaratives := s.declaratives.isSome, blocks := [s.graph.size] } := by
  refine Array.ext_getElem? fun i => ?_
  simp only [Scope.begun, Scope.grow, Procedures.list, hc]
  rw [Array.getElem?_modify, Array.getElem?_push, Array.getElem?_push]
  by_cases hi : i = s.procedures.sentences.size
  · simp [hi]
  · simp [hi, Ne.symm hi]

theorem erase_opened (s : Scope) (c : Procedures) : (s.opened c).procedures.erase = c.erase := by
  have hbegun : (s.begun c).procedures.erase = c.erase := Procedures.erase_list c _ _
  refine opened_cases c (P := fun t => t.procedures.erase = c.erase) (fun _ => hbegun)
    (fun _ _ => hbegun) fun _ _ _ => ?_
  exact (Procedures.erase_modify (f := fun t => { t with entry := some _ })
    (fun _ => rfl) _ _).trans
    hbegun

section NewBlock

variable {s' : Scope} {d : Bool} (hs : Growing.Sound s.graph)
  (hblock : s'.currentBlock = some s.graph.size) (hledger : s'.ledger = s.ledger)
  (hsentences : match q.sentence with
    | none => s'.procedures.sentences = s.procedures.sentences
    | some j => j = s.procedures.sentences.size ∧ ∃ t,
        s'.procedures.sentences = s.procedures.sentences.push t ∧ t.blocks = [s.graph.size] ∧
        ∀ k ∈ t.entry, s'.graph.slots[k]? = some s.graph.size)
include hs hblock hledger hsentences

/-- A new block to which nothing leads begins a chapter. -/
theorem begins_grow (hsize : s'.graph.size = s.graph.size + 1)
    (hchart : s'.graph.chart = (s.graph.grow { declaratives := d } q.tag).chart)
    (hslots : s'.graph.slots = s.graph.slots)
    (hroots : s'.graph.roots = s.graph.roots ++ if q.entered then [s.graph.size] else []) :
    Chapters.Begins s s' q none := by
  have hnew : s'.graph.chart s.graph.size = { flags := { declaratives := d }, tag := q.tag } := by
    rw [hchart, Graph.chart_grow hs, if_pos rfl]
  refine ⟨hsize, hblock, hnew ▸ ⟨rfl, rfl, rfl, rfl⟩, congrArg Spot.tag hnew,
    fun b hb => ?_, hroots,
    fun hk => hslots ▸ hk, congrArg Spot.group hnew, hledger, hsentences⟩
  rw [hchart, Graph.chart_grow hs, if_neg hb.ne, if_neg (by simp)]

/-- A new block to which an earlier one leads begins a chapter. -/
theorem begins_withEdge {b : ℕ} (hb : b < s.graph.size)
    (hgraph : s'.graph = (s.graph.grow { declaratives := d } q.tag).withEdge b s.graph.size)
    (hentered : q.entered = false) : Chapters.Begins s s' q (some b) := by
  have hchart : ∀ c, s'.graph.chart c =
      if c = b then { s.graph.chart c with next := (s.graph.chart c).next ++ [s.graph.size] }
      else if c = s.graph.size then { flags := { declaratives := d }, tag := q.tag }
      else s.graph.chart c := hgraph ▸ Graph.chart_grow_withEdge hs _ _ hb
  have hnew := (hchart s.graph.size).trans ((if_neg hb.ne').trans (if_pos rfl))
  refine ⟨?_, hblock, hnew ▸ ⟨rfl, rfl, rfl, rfl⟩, congrArg Spot.tag hnew, fun c hc => ?_, ?_, ?_,
    congrArg Spot.group hnew, hledger, hsentences⟩
  · rw [hgraph, Graph.size_withEdge, Graph.size_grow]
  · rw [hchart]
    by_cases hcb : c = b
    · rw [if_pos hcb, if_pos (by rw [hcb])]
    · rw [if_neg hcb, if_neg hc.ne, if_neg fun heq => hcb (Option.some.inj heq).symm]
  · rw [hgraph, hentered]
    exact (List.append_nil _).symm
  · intro k c hk
    have hlt := (Array.getElem?_eq_some_iff.1 hk).1
    rw [hgraph]
    change (s.graph.slots.push s.graph.size)[k]? = _
    rw [Array.getElem?_push, if_neg hlt.ne, hk]

end NewBlock

/-- An opened sentence begins a chapter. -/
theorem begins_opened (hs : Sound s)
    (hc : c.sentences = s.procedures.sentences.push
      { id := s.procedures.sentences.size, owner := s.currentParagraph.or s.currentSection
        declaratives := s.declaratives.isSome })
    (hsentence : q.sentence = some s.procedures.sentences.size)
    (hentered : q.entered = s.declarativeEntry) (htag : q.tag = (s.opened c).tag) :
    Chapters.Begins s (s.opened c) q (if s.declarativeEntry then none else s.currentBlock) := by
  have hbegun : (s.begun c).graph =
      s.graph.grow { declaratives := s.declaratives.isSome } q.tag := by
    rw [htag, tag_opened]
    rfl
  have hsize : (s.begun c).graph.size = s.graph.size + 1 := by
    rw [hbegun, Graph.size_grow]
  have hsentences := sentences_begun hc
  refine opened_cases c (P := fun t => Chapters.Begins s t q _) (fun h => ?_) (fun h hb => ?_)
    fun b h hb => ?_
  · rw [h, if_pos rfl]
    refine begins_grow (d := s.declaratives.isSome) hs.graph rfl rfl ?_ hsize ?_ rfl ?_
    · rw [hsentence]
      exact ⟨rfl, _, hsentences, rfl, by simp⟩
    · rw [← hbegun]
      exact Graph.chart_congr rfl rfl
    · rw [hentered, if_pos h]
      rfl
  · rw [h, if_neg Bool.false_ne_true, hb]
    refine begins_grow hs.graph rfl rfl ?_ hsize (congrArg Graph.chart hbegun) rfl ?_
    · rw [hsentence]
      exact ⟨rfl, _, hsentences, rfl, by simp⟩
    · rw [hentered, if_neg (by simp [h]), List.append_nil]
      rfl
  · rw [h, if_neg Bool.false_ne_true, hb]
    refine begins_withEdge hs.graph (by rfl) (by rfl) ?_ (hs.currentBlock b hb)
      (congrArg (fun g : Graph => g.withEdge b s.graph.size) hbegun) (hentered.trans h)
    rw [hsentence]
    refine ⟨rfl, { id := s.procedures.sentences.size
                   owner := s.currentParagraph.or s.currentSection
                   declaratives := s.declaratives.isSome, blocks := [s.graph.size]
                   entry := some s.graph.slots.size }, ?_, rfl, fun k hk => ?_⟩
    · change (s.begun c).procedures.sentences.modify s.procedures.sentences.size (fun t =>
        { t with entry := some s.graph.slots.size }) = _
      rw [hsentences]
      refine Array.ext_getElem? fun i => ?_
      rw [Array.getElem?_modify, Array.getElem?_push, Array.getElem?_push]
      by_cases hi : i = s.procedures.sentences.size
      · simp [hi]
      · simp [hi, Ne.symm hi]
    · obtain rfl := Option.mem_some.1 hk
      change (s.graph.slots.push s.graph.size)[s.graph.slots.size]? = _
      simp

end Opened

namespace Outline

variable {o : Options} {s s' : Scope} {p : Plan} {chs : List Chapter} {id : NodeId}

theorem isSome_declaratives (h : Outline o s p chs) :
    s.declaratives.isSome = p.declaratives.isSome := by
  rw [h.declaratives]
  cases hk : p.declaratives with
  | none => rfl
  | some k =>
    have hlt := h.declaratives_lt k hk
    simp [List.getElem?_eq_getElem hlt]

theorem tag (h : Outline o s p chs) : s.tag = p.tag := by
  have hprocedures : s.procedures.procedures = p.catalog.procedures := by rw [← h.catalog]; rfl
  have hcurrent : (s.currentParagraph.or s.currentSection).bind (s.procedures.procedures[·]?) =
      (p.currentParagraph.or p.currentSection).bind (p.catalog.procedures[·]?) := by
    rw [h.currentParagraph, h.currentSection, hprocedures]
  cases hprocedure : (p.currentParagraph.or p.currentSection).bind (p.catalog.procedures[·]?) <;>
    simp only [Scope.tag, Plan.tag, hcurrent, hprocedure]

theorem length_passages (h : Outline o s p chs) : p.passages.length = chs.length := by
  rw [← h.passages, List.length_map]

/-- The last chapter is where the scope is. -/
theorem last (h : Outline o s p chs) : ∃ pre c, chs = pre ++ [c] ∧ s.currentBlock = some c.stop ∧
    p.last? = some pre.length := by
  obtain rfl | ⟨pre, c, rfl⟩ := chs.eq_nil_or_concat
  · exact absurd rfl h.nonempty
  · rw [List.concat_eq_append] at *
    refine ⟨pre, c, rfl, h.chapters.here c (by simp), ?_⟩
    have hlength := h.length_passages
    rw [List.length_append, List.length_singleton] at hlength
    rw [Plan.last?, if_neg, hlength, Nat.add_sub_cancel]
    intro hempty
    rw [List.isEmpty_iff] at hempty
    simp [hempty] at hlength

theorem sound_noting (hs : Sound s) (nodes : List (NodeId × NodeInfo)) :
    Sound (s.noting nodes) :=
  hs.withGraph (g := { s.graph with nodes }) { hs.graph with } (Graph.le_of_extent_eq rfl)

/-- A sentence is opened. -/
theorem exists_openSentence (h : Outline o s p chs) (id : NodeId) :
    ∃ s' c, (∀ nodes, Build.startSentence (s.noting nodes) = .ok ((), s'.noting nodes)) ∧
      s'.graph.nodes = s.graph.nodes ∧ Outline o s' (p.openSentence id) (chs ++ [c]) ∧
      (p.openSentence id).begun = true := by
  obtain ⟨c, hadd, hpush, hstart⟩ := Build.exists_startSentence_eq_ok h.sound
  have hnoting : ∀ nodes, Build.startSentence (s.noting nodes) =
      .ok ((), (s.opened c).noting nodes) := fun nodes => by
    obtain ⟨c', hadd', -, hstart'⟩ := Build.exists_startSentence_eq_ok (sound_noting h.sound nodes)
    obtain rfl : c = c' := (Prod.mk.inj (Except.ok.inj (hadd.symm.trans hadd'))).2
    rw [hstart', opened_noting]
  obtain ⟨hsound, -, -⟩ := Build.startSentence_faultless.of_eq_ok h.sound hstart
  set q : Passage :=
    { sentence := some s.procedures.sentences.size, id, text := [], entered := s.declarativeEntry
      tag := (s.opened c).tag } with hq
  set origin : Option ℕ := if p.declarativeEntry then none else p.last? with horigin
  obtain ⟨pre, d, hchs, hcurrent, hlast⟩ := h.last
  have hn : chs[pre.length]? = some d := by rw [hchs]; exact List.getElem?_concat_length
  have hbegins := begins_opened (q := q) h.sound hpush rfl rfl rfl
  have hfrom : (if s.declarativeEntry then none else s.currentBlock) =
      origin.bind fun k => (chs[k]?).map (·.stop) := by
    rw [horigin, h.declarativeEntry, hcurrent, hlast]
    cases p.declarativeEntry <;> simp [hn]
  have hplan : p.openSentence id =
      { ({ p with catalog := c.erase, begun := true } : Plan).add origin q with
        declarativeEntry := false } := by
    have hadd' := Procedures.blind_addSentence _ _ _ _ _ hadd
    rw [h.catalog, h.currentParagraph, h.currentSection, h.isSome_declaratives] at hadd'
    have htag : (s.opened c).tag = ({ p with catalog := c.erase, begun := true } : Plan).tag := by
      rw [tag_opened, Scope.tag, Plan.tag, h.currentParagraph, h.currentSection]
      rfl
    rw [Plan.openSentence, Plan.edit]
    simp only [hadd']
    rw [hq, htag, h.declarativeEntry]
    rfl
  have hsetting := setting_opened s c
  have hnodes : (s.opened c).graph.nodes = s.graph.nodes :=
    opened_cases c (P := fun t => t.graph.nodes = s.graph.nodes) (fun _ => rfl) (fun _ _ => rfl)
      fun _ _ _ => rfl
  refine ⟨s.opened c, .blank q (s.opened c).sketch, hnoting, hnodes, ?_, by rw [hplan]; rfl⟩
  rw [hplan]
  refine ⟨hsound, (congrArg Scope.inDivision hsetting).trans h.inDivision, ?_,
    (congrArg Scope.problems hsetting).trans h.problems, ?_, by simp, ?_, erase_opened s c,
    (congrArg Scope.currentSection hsetting).trans h.currentSection,
    (congrArg Scope.currentParagraph hsetting).trans h.currentParagraph, ?_, ?_,
    congrArg Scope.declarativeEntry hsetting, fun hfalse => ?_, fun _ => ?_⟩
  · exact opened_cases c (P := fun t => t.forks = []) (fun _ => h.forks) (fun _ _ => h.forks)
      fun _ _ _ => h.forks
  · have hpush := h.chapters.push (q := q) rfl origin (fun k hk => ?_) (hfrom ▸ hbegins)
    · rwa [← h.length_passages] at hpush
    · rw [horigin, hlast] at hk
      cases hentry : p.declarativeEntry with
      | true => simp [hentry] at hk
      | false =>
        obtain rfl : pre.length = k := by simpa [hentry] using hk
        exact (List.getElem?_eq_some_iff.1 hn).1
  · rw [List.map_append, h.passages]
    rfl
  · refine (congrArg Scope.declaratives hsetting).trans (h.declaratives.trans ?_)
    refine Option.bind_congr fun k hk => ?_
    rw [List.getElem?_append_left (h.declaratives_lt k hk)]
  · intro k hk
    rw [List.length_append]
    exact (h.declaratives_lt k hk).trans (Nat.lt_succ_self _)
  · cases hfalse
  · exact ⟨chs, _, rfl, rfl, rfl, rfl, rfl, congrArg Scope.currentSentence hsetting, rfl⟩

theorem ready (h : Outline o s p chs) (hp : p.begun = true) : Ready s := by
  obtain ⟨pre, c, rfl, -, hlast, -, -, hsentence, hsome⟩ := h.opened hp
  refine ⟨h.sound, h.inDivision, hsentence ▸ hsome, ?_, ?_⟩
  · simp [h.chapters.here c (by simp)]
  · rw [← hlast]
    exact (h.chapters.drawn c (by simp)).fragment.opened

/-- The open sentence is read up to its period. -/
theorem exists_readSentence (h : Outline o s p chs) (hp : p.begun = true)
    (hdeclaratives : ∀ k ∈ p.declaratives, k + 1 < chs.length) (id : NodeId) (text : SentenceText) :
    ∃ s' chs', Build.play o ((Script.sentence text).run id).1 s = .ok ((), s') ∧
      Outline o s' (p.readSentence id text) chs' ∧ chs.dropLast <+: chs' := by
  have hready := h.ready hp
  obtain ⟨pre, c, rfl, hfirst, hlast, hmarks, htag, hsentence, hsome⟩ := h.opened hp
  obtain ⟨-, hplays⟩ := says_statements o text id
  obtain ⟨s₁, L, hplay, hadvance⟩ := hplays s hready
  have hsilent : (s.sketch.chart s.sketch.here).nodes = [] := by
    have hsilent := (h.chapters.drawn c (by simp)).silent
    rwa [Chapter.start, hfirst] at hsilent
  have hread := h.chapters.read hfirst hlast hmarks htag hsentence hsome id text hadvance
    fun n => hready.begins_statements hsilent hplay
  have hsince := hadvance.since
  have hcurrent : s₁.currentSentence.isSome := hsince.currentSentence ▸ hready.currentSentence
  have hend : Build.take o .sentenceEnd s₁ = .ok ((), { s₁ with currentSentence := none }) := by
    rw [Build.take, Build.endSentence, run_bind (a := s₁) (t := s₁) rfl,
      if_pos ((hsince.keeps Scope.inDivision fun _ => rfl).trans h.inDivision)]
    refine (run_bind (a := ⟨⟩) (t := s₁) ?_ _).trans rfl
    rw [Build.ensureSentence, run_bind (a := s₁) (t := s₁) rfl, if_neg]
    · rfl
    · simpa [Option.isSome_iff_ne_none] using hcurrent
  refine ⟨{ s₁ with currentSentence := none }, _,
    (Build.play_append hplay).trans (Build.play_cons hend),
    ⟨{ hsince.sound with currentSentence := by simp },
    (hsince.keeps Scope.inDivision fun _ => rfl).trans h.inDivision,
    hsince.forks.trans h.forks, (hsince.keeps Scope.problems fun _ => rfl).trans h.problems,
    { hread with }, by simp, ?_, ?_,
    (hsince.keeps Scope.currentSection fun _ => rfl).trans h.currentSection,
    (hsince.keeps Scope.currentParagraph fun _ => rfl).trans h.currentParagraph, ?_,
    by simpa [Plan.readSentence] using h.declaratives_lt,
    (hsince.keeps Scope.declarativeEntry fun _ => rfl).trans h.declarativeEntry,
    fun _ => rfl, fun htrue => by cases htrue⟩, by simp⟩
  · rw [Plan.readSentence, ← h.passages]
    simp
  · refine Eq.trans ?_ h.catalog
    refine (congrArg Procedures.erase hsince.procedures).trans ?_
    exact Procedures.erase_list _ _ _
  · refine (hsince.keeps Scope.declaratives fun _ => rfl).trans (h.declaratives.trans ?_)
    refine Option.bind_congr fun k hk => ?_
    have hlt : k < pre.length := by simpa using hdeclaratives k hk
    rw [List.getElem?_append_left hlt, List.getElem?_append_left hlt]

/-- A statement may be entered before or after its sentence has been opened. -/
theorem take_enter_eq {n : Node} (hn : n.tag.isStatement = true) (htag : n.tag ≠ .procedureDivision)
    (hdivision : s.inDivision = true) (hcurrent : s.currentSentence = none)
    (hdivision' : s'.inDivision = true) (hcurrent' : s'.currentSentence.isSome)
    (hstart : ∀ nodes, Build.startSentence (s.noting nodes) = .ok ((), s'.noting nodes))
    (hnodes : s'.graph.nodes = s.graph.nodes) :
    Build.take o (.enter n) s = Build.take o (.enter n) s' := by
  have hinside : Build.enterInside o n s = Build.enterInside o n s' := by
    have hrecord : ∀ t : Scope, Build.editGraph (Graph.recordNode n) t =
        .ok ((), t.noting ((n.id, n.info) :: t.graph.nodes)) := fun t => rfl
    simp only [Build.enterInside, hn, if_true]
    rw [run_bind (hrecord s), run_bind (hrecord s'), hnodes]
    set nodes := (n.id, n.info) :: s.graph.nodes
    have hopen : Build.ensureSentence (s.noting nodes) = .ok ((), s'.noting nodes) := by
      rw [Build.ensureSentence, run_bind (a := s.noting nodes) (t := s.noting nodes) rfl, if_pos]
      · exact hstart nodes
      · simp [Scope.noting, hcurrent]
    have hkeep : Build.ensureSentence (s'.noting nodes) = .ok ((), s'.noting nodes) := by
      rw [Build.ensureSentence, run_bind (a := s'.noting nodes) (t := s'.noting nodes) rfl, if_neg]
      · rfl
      · simpa [Scope.noting, Option.isSome_iff_ne_none] using hcurrent'
    rw [run_bind hopen, run_bind hkeep]
  have henter : ∀ t : Scope, t.inDivision = true → Build.take o (.enter n) t =
      (Build.enterInside o n >>= fun _ =>
        modify fun s => { s with enclosing := n.tag :: s.enclosing }) t := fun t ht => by
    rw [Build.take, Build.enterNode, if_neg htag]
    refine (run_bind (a := t) (t := t) rfl _).trans ?_
    rw [if_pos ht]
  rw [henter s hdivision, henter s' hdivision']
  change (Build.enterInside o n s >>= _) = (Build.enterInside o n s' >>= _)
  rw [hinside]

theorem exists_sentence (h : Outline o s p chs) (id : NodeId) (text : SentenceText)
    (hallows : p.Allows (.sentence id text)) : ∃ s' chs',
      Build.play o (Item.sentence id text).events s = .ok ((), s') ∧
      Outline o s' (p.step (.sentence id text)) chs' ∧ (p.begun = false → chs <+: chs') := by
  rw [Plan.step]
  cases hp : p.begun with
  | true =>
    have hnone : p.declaratives = none := hallows hp
    obtain ⟨s₁, chs', hplay, h₁, -⟩ := h.exists_readSentence hp (by simp [hnone]) id text
    exact ⟨s₁, chs', hplay, h₁, by simp⟩
  | false =>
    obtain ⟨s₁, c, hstart, hnodes, h₁, hbegun⟩ := h.exists_openSentence id
    have hready := h₁.ready hbegun
    have hdeclaratives : (p.openSentence id).declaratives = p.declaratives := by
      rw [Plan.openSentence, Plan.edit]
      split <;> rfl
    obtain ⟨s₂, chs', hplay, h₂, hprefix⟩ := h₁.exists_readSentence hbegun (fun k hk => by
      rw [List.length_append]
      exact Nat.succ_lt_succ (h.declaratives_lt k (hdeclaratives ▸ hk))) id text
    refine ⟨s₂, chs', Eq.trans ?_ hplay, h₂, fun _ => by rwa [List.dropLast_concat] at hprefix⟩
    have hcurrent := h.closed hp
    rw [Item.events]
    cases text with
    | nil =>
      have hevents : ((Script.sentence []).run id).1 = [.sentenceEnd] := by
        rw [Script.sentence, Script.statements]
        rfl
      have hopen : Build.endSentence s = Build.endSentence s₁ := by
        have hrun : Build.ensureSentence s = .ok ((), s₁) := by
          have hsame := hstart s.graph.nodes
          rw [show s₁.noting s.graph.nodes = s₁ by rw [← hnodes]; rfl] at hsame
          rw [Build.ensureSentence, run_bind (a := s) (t := s) rfl, if_pos (by simp [hcurrent])]
          exact hsame
        have hkeep : Build.ensureSentence s₁ = .ok ((), s₁) := by
          rw [Build.ensureSentence, run_bind (a := s₁) (t := s₁) rfl, if_neg]
          · rfl
          · simpa [Option.isSome_iff_ne_none] using hready.currentSentence
        rw [Build.endSentence, run_bind (a := s) (t := s) rfl, if_pos h.inDivision, run_bind hrun,
          run_bind (a := s₁) (t := s₁) rfl, if_pos h₁.inDivision, run_bind hkeep]
      rw [hevents]
      change (Build.endSentence s >>= _) = (Build.endSentence s₁ >>= _)
      rw [hopen]
    | cons st rest =>
      obtain ⟨n, events, hevents, hn, htag, -⟩ := Script.exists_enter_statements st rest id
      have hsentence : ((Script.sentence (st :: rest)).run id).1 =
          .enter n :: (events ++ [.sentenceEnd]) := by
        change ((Script.statements (st :: rest)).run id).1 ++ [.sentenceEnd] = _
        rw [hevents]
        rfl
      rw [hsentence]
      change (Build.take o (.enter n) s >>= _) = (Build.take o (.enter n) s₁ >>= _)
      rw [take_enter_eq hn htag h.inDivision hcurrent h₁.inDivision hready.currentSentence hstart
        hnodes]

/-! ### Headings -/

theorem noting (h : Outline o s p chs) (nodes : List (NodeId × NodeInfo)) :
    Outline o (s.noting nodes) p chs :=
  { h with
    sound := sound_noting h.sound nodes
    chapters := h.chapters.congr (Graph.chart_congr rfl rfl) rfl rfl rfl rfl rfl rfl }

theorem withEnclosing (h : Outline o s p chs) (enclosing : List NodeTag) :
    Outline o { s with enclosing } p chs :=
  { h with
    sound := { h.sound with }
    chapters := h.chapters.congr rfl rfl rfl rfl rfl rfl rfl }

/-- No sentence is open after a heading. -/
theorem close (h : Outline o s p chs) :
    Outline o { s with currentSentence := none } { p with begun := false } chs :=
  { h with
    sound := { h.sound with currentSentence := by simp }
    chapters := h.chapters.congr rfl rfl rfl rfl rfl rfl rfl
    closed := fun _ => rfl
    opened := nofun }

/-- A change of the catalog that adds no sentence. -/
theorem exists_edit (h : Outline o s p chs) (hp : p.begun = false) {e : Procedures.Edit ProcedureId}
    (he : Faultless e s.procedures fun i c =>
      i < c.procedures.size ∧ c.sentences = s.procedures.sentences)
    (hblind : Procedures.Blind e) : ∃ i c, e s.procedures = .ok (i, c) ∧ i < c.procedures.size ∧
      Outline o { s with procedures := c } { p with catalog := c.erase } chs ∧
      e p.catalog = .ok (i, c.erase) := by
  obtain ⟨i, c, hrun, hc, hle, hi, hsentences⟩ := he h.sound.procedures
  refine ⟨i, c, hrun, hi, { h with
    sound := h.sound.withProcedures hc hle fun i t ht => h.sound.sentence (hsentences ▸ ht)
    chapters := h.chapters.congr rfl rfl rfl rfl rfl rfl hsentences
    catalog := rfl
    opened := fun htrue => nomatch hp.symm.trans htrue }, h.catalog ▸ hblind _ _ _ hrun⟩

theorem exists_enterSection (h : Outline o s p chs) (name : String) (span : Span) (id : NodeId) :
    ∃ s', Build.enterSection name span s = .ok ((), s') ∧
      Outline o s' (p.step (.enter (.sectionHeader name span) id)) chs := by
  obtain ⟨i, c, hrun, hi, h', hplan⟩ := h.close.exists_edit rfl
    (Procedures.addSection_faultless name s.declaratives.isSome span)
    (Procedures.blind_addSection _ _ _)
  refine ⟨{ s with
    procedures := c
    currentSection := some i
    currentParagraph := none
    currentSentence := none
    declarativeEntry := s.declarativeEntry || s.declaratives.isSome }, ?_, ?_⟩
  · rw [Build.enterSection, run_bind (a := s) (t := s) rfl]
    refine (run_bind (a := i) (t := { s with procedures := c }) ?_ _).trans rfl
    rw [Build.editProcedures, hrun]
    rfl
  · rw [h.isSome_declaratives] at hplan
    simp only [Plan.step, Plan.edit, show Procedures.addSection _ _ _ p.catalog = _ from hplan]
    exact { h' with
      sound := { h'.sound with
        currentSection := fun j hj => Option.mem_some.1 hj ▸ hi
        currentParagraph := by simp }
      currentSection := rfl
      currentParagraph := rfl
      declarativeEntry := by rw [h.declarativeEntry, h.isSome_declaratives]
      chapters := h'.chapters.congr rfl rfl rfl rfl rfl rfl rfl
      opened := by simp }

theorem exists_enterParagraph (h : Outline o s p chs) (name : String) (span : Span) (id : NodeId) :
    ∃ s', Build.enterParagraph name span s = .ok ((), s') ∧
      Outline o s' (p.step (.enter (.paragraphHeader name span) id)) chs := by
  obtain ⟨i, c, hrun, hi, h', hplan⟩ := h.close.exists_edit rfl
    (Procedures.addParagraph_faultless name h.sound.currentSection s.declaratives.isSome span)
    (Procedures.blind_addParagraph _ _ _ _)
  refine ⟨{ s with procedures := c, currentParagraph := some i, currentSentence := none }, ?_, ?_⟩
  · rw [Build.enterParagraph, run_bind (a := s) (t := s) rfl]
    refine (run_bind (a := i) (t := { s with procedures := c }) ?_ _).trans rfl
    rw [Build.editProcedures, hrun]
    rfl
  · rw [h.isSome_declaratives, h.currentSection] at hplan
    simp only [Plan.step, Plan.edit, show Procedures.addParagraph _ _ _ _ p.catalog = _ from hplan]
    exact { h' with
      sound := { h'.sound with currentParagraph := fun j hj => Option.mem_some.1 hj ▸ hi }
      currentParagraph := rfl
      chapters := h'.chapters.congr rfl rfl rfl rfl rfl rfl rfl
      opened := by simp }

theorem exists_enterDeclaratives (h : Outline o s p chs) (id : NodeId) :
    ∃ s', Build.enterDeclaratives s = .ok ((), s') ∧
      Outline o s' (p.step (.enter .declaratives id)) chs := by
  obtain ⟨pre, c, hchs, hblock, hlast⟩ := h.last
  have hn : chs[pre.length]? = some c := by rw [hchs]; exact List.getElem?_concat_length
  obtain ⟨violations, hrun⟩ : ∃ violations, Build.enterDeclaratives s =
      .ok ((), { s with violations, declaratives := some c.stop }) := by
    rw [Build.enterDeclaratives, run_bind (a := s) (t := s) rfl]
    cases hnested : s.declaratives.isSome with
    | true =>
      simp only [if_true]
      refine ⟨s.violations ++ [.nestedDeclaratives], ?_⟩
      conv_lhs => rw [hblock]
      rfl
    | false =>
      simp only [if_false, Bool.false_eq_true]
      refine ⟨s.violations, ?_⟩
      conv_lhs => rw [hblock]
      rfl
  obtain ⟨hsound, -, -⟩ := Build.enterDeclaratives_faultless.of_eq_ok h.sound hrun
  refine ⟨_, hrun, { h with
    sound := hsound
    chapters := h.chapters.congr rfl rfl rfl rfl rfl rfl rfl
    declaratives := ?_
    declaratives_lt := fun k hk => ?_ }⟩
  · simp [Plan.step, hlast, hn]
  · obtain rfl : pre.length = k := by simpa [Plan.step, hlast] using hk
    exact (List.getElem?_eq_some_iff.1 hn).1

theorem exists_enter (h : Outline o s p chs) (heading : Heading) (id : NodeId) :
    ∃ s', Build.play o (Item.enter heading id).events s = .ok ((), s') ∧
      Outline o s' (p.step (.enter heading id)) chs := by
  set n := heading.node id with hn
  set nodes := (n.id, n.info) :: s.graph.nodes
  have hstatement : n.tag.isStatement = false := by cases heading <;> rfl
  have htag : n.tag ≠ .procedureDivision := by cases heading <;> exact nofun
  obtain ⟨s₁, hkind, h₁⟩ : ∃ s', Build.enterKind o n (s.noting nodes) = .ok ((), s') ∧
      Outline o s' (p.step (.enter heading id)) chs := by
    cases heading with
    | declaratives => exact (h.noting nodes).exists_enterDeclaratives id
    | sectionHeader name span => exact (h.noting nodes).exists_enterSection name span id
    | paragraphHeader name span => exact (h.noting nodes).exists_enterParagraph name span id
  have hinside : Build.enterInside o n s = .ok ((), s₁) := by
    have hrecord : Build.editGraph (Graph.recordNode n) s = .ok ((), s.noting nodes) := rfl
    simp only [Build.enterInside, hstatement]
    rw [run_bind hrecord]
    exact hkind
  have henter : Build.take o (.enter n) s =
      .ok ((), { s₁ with enclosing := n.tag :: s₁.enclosing }) := by
    rw [Build.take, Build.enterNode, if_neg htag]
    refine (run_bind (a := s) (t := s) rfl _).trans ?_
    rw [if_pos h.inDivision]
    exact (run_bind hinside _).trans rfl
  exact ⟨_, Build.play_cons henter, h₁.withEnclosing _⟩

/-- What follows the DECLARATIVES belongs to no section that was written. -/
theorem exists_resetSection (h : Outline o s p chs) (hp : p.begun = false) :
    ∃ root c s₁, Procedures.rootSection p.catalog = .ok (root, c) ∧
      Build.leaveDeclaratives s =
        (s.declaratives.elim (pure ()) fun origin => do
          let next ← Build.newBlock none
          Build.editGraph (resumeAfterDeclaratives origin next)
          Build.setCurrent next) s₁ ∧
      s₁.declaratives = none ∧ Outline o s₁ { p with
        catalog := c
        declarativeEntry := false
        currentSection := some root
        currentParagraph := none
        declaratives := none } chs := by
  obtain ⟨root, c, hrun, hroot, h', hplan⟩ := h.exists_edit hp Procedures.rootSection_faultless
    Procedures.blind_rootSection
  set s₁ : Scope := { s with
    procedures := c
    declarativeEntry := false
    currentSection := some root
    currentParagraph := none
    declaratives := none }
  refine ⟨root, c.erase, s₁, hplan, ?_, rfl,
    { h' with
      sound := { h'.sound with
        currentSection := fun j hj => Option.mem_some.1 hj ▸ hroot
        currentParagraph := by simp
        declaratives := by simp }
      currentSection := rfl
      currentParagraph := rfl
      declaratives := rfl
      declaratives_lt := by simp
      declarativeEntry := rfl
      chapters := h'.chapters.congr rfl rfl rfl rfl rfl rfl rfl
      opened := fun htrue => nomatch hp.symm.trans htrue }⟩
  have hedit : Build.editProcedures Procedures.rootSection s =
      .ok (root, { s with procedures := c }) := by
    rw [Build.editProcedures, hrun]
    rfl
  rw [Build.leaveDeclaratives, run_bind hedit]
  refine (run_bind (a := { s with procedures := c }) (t := { s with procedures := c })
    rfl _).trans ?_
  refine (run_bind (a := ⟨⟩) (t := s₁) rfl _).trans ?_
  cases s.declaratives <;> rfl

/-- After the DECLARATIVES, the program goes on where it was before them, in a new block. -/
theorem exists_resume (h : Outline o s p chs) (hp : p.begun = false) {k : ℕ} {d : Chapter}
    (hd : chs[k]? = some d) (hnone : s.declaratives = none) (htail : p.declaratives = none) :
    ∃ s' chs', (do
        let next ← Build.newBlock none
        Build.editGraph (resumeAfterDeclaratives d.stop next)
        Build.setCurrent next : Build Unit) s = .ok ((), s') ∧
      Outline o s' (p.add (some k)
        { sentence := none, id := 0, text := [], entered := false, tag := p.tag }) chs' ∧
      chs <+: chs' := by
  set q : Passage := { sentence := none, id := 0, text := [], entered := false, tag := p.tag }
  have hk : k < chs.length := (List.getElem?_eq_some_iff.1 hd).1
  have hlt : d.stop < s.graph.size :=
    h.chapters.has_lt hd (h.chapters.drawn d (List.mem_of_getElem? hd)).has_stop
  have hgrow : s.grow.graph = s.graph.grow {} s.tag := by simp [Scope.grow, hnone]
  set s' : Scope := { s.grow with
    graph := s.grow.graph.withEdge d.stop s.graph.size, currentBlock := some s.graph.size }
  have hcurrent : s.currentSentence = none := h.closed hp
  have hprocedures : s'.procedures = s.procedures := by
    change s.procedures.list s.currentSentence _ = _
    rw [hcurrent]
    rfl
  have hlt' : d.stop < s.grow.graph.size := by
    rw [hgrow, Graph.size_grow]
    exact hlt.trans (Nat.lt_succ_self _)
  have hedge : Build.editGraph (resumeAfterDeclaratives d.stop s.graph.size) s.grow =
      .ok ((), { s.grow with graph := s.grow.graph.withEdge d.stop s.graph.size }) :=
    Build.editGraph_eq_ok ((run_bind (Graph.addEdge_eq_ok hlt') _).trans rfl)
  have hbegins : Chapters.Begins s s' q ((some k).bind fun k => (chs[k]?).map (·.stop)) := by
    rw [Option.bind_some, hd, Option.map_some]
    refine begins_withEdge (d := false) h.sound.graph ?_ ?_ ?_ hlt ?_ rfl
    · rfl
    · rfl
    · exact congrArg Procedures.sentences hprocedures
    · change s.grow.graph.withEdge d.stop s.graph.size = _
      rw [hgrow, h.tag]
  have hpush := h.chapters.push (q := q) rfl (some k) (fun j hj => Option.mem_some.1 hj ▸ hk)
    hbegins
  rw [← h.length_passages] at hpush
  have hrun : (do
      let next ← Build.newBlock none
      Build.editGraph (resumeAfterDeclaratives d.stop next)
      Build.setCurrent next : Build Unit) s = .ok ((), s') :=
    (run_bind (Build.newBlock_eq_ok h.sound) _).trans ((run_bind hedge _).trans rfl)
  obtain ⟨hsound, -, -⟩ := (Build.resume_faultless hlt).of_eq_ok h.sound hrun
  exact ⟨s', chs ++ [.blank q s'.sketch], hrun,
    { sound := hsound
      inDivision := h.inDivision
      forks := h.forks
      problems := h.problems
      chapters := hpush
      nonempty := by simp
      passages := by
        rw [List.map_append, h.passages]
        rfl
      catalog := (congrArg Procedures.erase hprocedures).trans h.catalog
      currentSection := h.currentSection
      currentParagraph := h.currentParagraph
      declaratives := by
        change s.declaratives = p.declaratives.bind _
        rw [hnone, htail]
        rfl
      declaratives_lt := by simp [Plan.add, htail]
      declarativeEntry := h.declarativeEntry
      closed := fun _ => hcurrent
      opened := fun htrue => absurd (hp.symm.trans htrue) Bool.false_ne_true },
    List.prefix_append _ _⟩

/-- What follows the DECLARATIVES goes on where they began. -/
theorem exists_leaveDeclaratives (h : Outline o s p chs) (hp : p.begun = false) (id : NodeId) :
    ∃ s' chs', Build.leaveDeclaratives s = .ok ((), s') ∧
      Outline o s' (p.step (.leave .declaratives id)) chs' ∧ chs <+: chs' := by
  obtain ⟨root, c, s₁, hplan, hstart, hnone, h₁⟩ := h.exists_resetSection hp
  simp only [Plan.step, Plan.edit, hplan]
  rw [hstart, h.declaratives]
  cases hk : p.declaratives with
  | none => exact ⟨s₁, chs, rfl, h₁, List.prefix_rfl⟩
  | some k =>
    obtain ⟨d, hd⟩ : ∃ d, chs[k]? = some d :=
      ⟨_, List.getElem?_eq_getElem (h.declaratives_lt k hk)⟩
    rw [Option.bind_some, hd, Option.map_some]
    exact h₁.exists_resume hp hd hnone rfl

theorem exists_leave (h : Outline o s p chs) (heading : Heading) (id : NodeId)
    (hallows : p.Allows (.leave heading id)) : ∃ s' chs',
      Build.play o (Item.leave heading id).events s = .ok ((), s') ∧
      Outline o s' (p.step (.leave heading id)) chs' ∧ chs <+: chs' := by
  set n := heading.node id with hn
  have hleave : ∀ {s' : Scope},
      Build.leaveInside o n { s with enclosing := s.enclosing.tail } = .ok ((), s') →
        Build.take o (.leave n) s = .ok ((), s') := fun hrun => by
    rw [Build.take, Build.leaveNode]
    refine (run_bind (a := ⟨⟩) (t := { s with enclosing := s.enclosing.tail }) rfl _).trans ?_
    refine (run_bind (a := { s with enclosing := s.enclosing.tail }) rfl _).trans ?_
    rw [if_pos h.inDivision]
    exact hrun
  have h' := h.withEnclosing s.enclosing.tail
  cases heading with
  | declaratives =>
    obtain ⟨s₁, chs', hrun, h₁, hprefix⟩ :=
      h'.exists_leaveDeclaratives (Bool.eq_false_of_not_eq_true hallows) id
    exact ⟨s₁, chs', Build.play_cons (hleave hrun), h₁, hprefix⟩
  | sectionHeader name span =>
    exact ⟨_, chs, Build.play_cons (hleave rfl), h', List.prefix_rfl⟩
  | paragraphHeader name span =>
    exact ⟨_, chs, Build.play_cons (hleave rfl), h', List.prefix_rfl⟩

/-- An item draws at most one chapter, behind those that there are. -/
theorem exists_item (h : Outline o s p chs) (item : Item) (hallows : p.Allows item) :
    ∃ s' chs', Build.play o item.events s = .ok ((), s') ∧ Outline o s' (p.step item) chs' ∧
      (p.begun = false → chs <+: chs') := by
  cases item with
  | enter heading id =>
    obtain ⟨s₁, hplay, h₁⟩ := h.exists_enter heading id
    exact ⟨s₁, chs, hplay, h₁, fun _ => List.prefix_rfl⟩
  | leave heading id =>
    obtain ⟨s₁, chs', hplay, h₁, hprefix⟩ := h.exists_leave heading id hallows
    exact ⟨s₁, chs', hplay, h₁, fun _ => hprefix⟩
  | sentence id text => exact h.exists_sentence id text hallows

/-- **The items of a division draw the plan that they are read to.** What is drawn stands, once the
first sentence is closed. -/
theorem exists_play (h : Outline o s p chs) (items : List Item) (hallows : p.AllowsAll items) :
    ∃ s' chs', Build.play o (items.flatMap Item.events) s = .ok ((), s') ∧
      Outline o s' (p.read items) chs' ∧ (p.begun = false → chs <+: chs') := by
  induction items generalizing s p chs with
  | nil => exact ⟨s, chs, rfl, h, fun _ => List.prefix_rfl⟩
  | cons item rest ih =>
    obtain ⟨s₁, chs₁, hplay₁, h₁, hprefix₁⟩ := h.exists_item item hallows.1
    obtain ⟨s₂, chs₂, hplay₂, h₂, hprefix₂⟩ := ih h₁ hallows.2
    refine ⟨s₂, chs₂, ?_, h₂, fun hp => (hprefix₁ hp).trans (hprefix₂ (Plan.begun_step hp item))⟩
    rw [List.flatMap_cons, Build.play_append hplay₁, hplay₂]

end Outline

end CobolFlow
