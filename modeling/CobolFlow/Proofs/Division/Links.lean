import CobolFlow.Proofs.Division.Body
import CobolFlow.Proofs.Faultless.Resolution

/-!
# Drawing edges to sentences

When the names of a division are looked up, edges are added to blocks that exist, and problems are
reported; nothing else changes. `Scope.Links` says which edges and which problems. An edge into a
sentence goes through the slot that is kept with the sentence, so no block leads into a sentence
twice.

## Main definitions

* `Procedures.find?`, `Procedures.entrance?` — what a name stands for, and where it leads
* `Scope.Links` — nothing but some edges has been drawn and some problems been reported
* `Scope.LeadsOnce` — a block leads nowhere twice

## Main results

* `Build.exists_linkToSentence` — a block is led into a sentence
* `Scope.Links.leadsOnce`, `Scope.Links.next_eq` — edges are added behind those that there are, and
  only where the block does not lead yet
-/

namespace CobolFlow

namespace Procedures

variable (c : Procedures)

/-- The procedure that a name stands for. -/
def find? (n : QualifiedName) : Option ProcedureId :=
  match c.resolve n with
  | .ok (.unique p) => some p
  | _ => none

/-- What is reported of a name that stands for no procedure, or for several. -/
def complaints (n : QualifiedName) (span : Span) : List Problem :=
  match c.resolve n with
  | .ok .absent => [{ kind := .unknownProcedure n.display, span }]
  | .ok (.ambiguous candidates) => [{ kind := .ambiguousProcedure n.display candidates, span }]
  | _ => []

/-- The sentence with which a procedure begins. -/
def opening? (p : ProcedureId) : Option SentenceId :=
  match c.firstSentence p with
  | .ok j? => j?
  | .error _ => none

/-- The block with which a sentence begins. -/
def firstBlock? (j : SentenceId) : Option BlockId := c.sentences[j]?.bind (·.firstBlock?)

/-- No two sentences begin in the same block. -/
def BeginApart : Prop := ∀ {i j : SentenceId} {b : BlockId}, c.firstBlock? i = some b →
  c.firstBlock? j = some b → i = j

/-- The block to which a jump to a name leads. -/
def entrance? (n : QualifiedName) : Option BlockId :=
  ((c.find? n).bind c.opening?).bind c.firstBlock?

/-- The catalog without what is known of edges. -/
def bare (c : Procedures) : Procedures :=
  { c with sentences := c.sentences.map fun t => { t with entry := none } }

variable {c} {c' : Procedures} {p : ProcedureId} {n : QualifiedName} {j : SentenceId}

/-- A paragraph follows the section that lists it, so the first sentence is found from below. -/
theorem firstSentence_with (c : Procedures) (sentences : Array Sentence) (p : ProcedureId) :
    ({ c with sentences } : Procedures).firstSentence p = c.firstSentence p := by
  induction hk : c.procedures.size - p using Nat.strong_induction_on generalizing p with
  | _ k ih =>
    rw [firstSentence, firstSentence]
    split
    · next hp =>
      refine congrArg (fun f => List.findSomeM? f c.procedures[p].parts) (funext fun part => ?_)
      cases part with
      | sentence j => rfl
      | paragraphPart q =>
        simp only
        split
        · next hq => exact ih _ (hk ▸ Nat.sub_lt_sub_left hp hq) q rfl
        · rfl
    · rfl

theorem sentencesOf_with (c : Procedures) (sentences : Array Sentence) (p : ProcedureId) :
    ({ c with sentences } : Procedures).sentencesOf p = c.sentencesOf p := by
  induction hk : c.procedures.size - p using Nat.strong_induction_on generalizing p with
  | _ k ih =>
    rw [sentencesOf, sentencesOf]
    split
    · next hp =>
      refine congrArg (fun f => List.mapM f c.procedures[p].parts >>= fun found =>
        pure found.flatten) (funext fun part => ?_)
      cases part with
      | sentence j => rfl
      | paragraphPart q =>
        simp only
        split
        · next hq => exact ih _ (hk ▸ Nat.sub_lt_sub_left hp hq) q rfl
        · rfl
    · rfl

/-- Two catalogs that differ in what is known of sentences. -/
def SameNames (c c' : Procedures) : Prop := c' = { c with sentences := c'.sentences }

theorem SameNames.of_bare (h : c'.bare = c.bare) : SameNames c c' := by
  have heq := congrArg (fun d : Procedures => ({ d with sentences := c'.sentences } : Procedures)) h
  exact heq

theorem SameNames.of_erase (h : c'.erase = c.erase) : SameNames c c' := by
  have heq := congrArg (fun d : Procedures => ({ d with sentences := c'.sentences } : Procedures)) h
  exact heq

namespace SameNames

theorem resolve_eq (h : SameNames c c') (n : QualifiedName) : c'.resolve n = c.resolve n := by
  rw [h]
  rfl

theorem find?_eq (h : SameNames c c') : c'.find? = c.find? := by
  funext n
  rw [find?, find?, h.resolve_eq]

theorem complaints_eq (h : SameNames c c') : c'.complaints = c.complaints := by
  funext n span
  rw [complaints, complaints, h.resolve_eq]

theorem sentencesOf_eq (h : SameNames c c') (p : ProcedureId) :
    c'.sentencesOf p = c.sentencesOf p := by
  rw [h, sentencesOf_with]

theorem opening?_eq (h : SameNames c c') : c'.opening? = c.opening? := by
  funext p
  rw [h, opening?, opening?, firstSentence_with]

end SameNames

theorem getElem?_bare (c : Procedures) (j : SentenceId) :
    c.bare.sentences[j]? = c.sentences[j]?.map fun t => { t with entry := none } :=
  Array.getElem?_map

theorem erase_bare (c : Procedures) : c.bare.erase = c.erase := by
  simp [bare, erase, Function.comp_def]

theorem firstBlock?_eq (h : c'.bare = c.bare) : c'.firstBlock? = c.firstBlock? := by
  funext j
  have hj := congrArg (fun d : Procedures => d.sentences[j]?) h
  simp only [getElem?_bare] at hj
  rw [firstBlock?, firstBlock?]
  cases ht' : c'.sentences[j]? with
  | none =>
    cases ht : c.sentences[j]? with
    | none => rfl
    | some t => simp [ht, ht'] at hj
  | some t' =>
    cases ht : c.sentences[j]? with
    | none => simp [ht, ht'] at hj
    | some t =>
      rw [ht, ht', Option.map_some, Option.map_some, Option.some.injEq] at hj
      have hhead := congrArg (fun t : Sentence => t.blocks.head?) hj
      exact hhead

theorem entrance?_eq (h : c'.bare = c.bare) : c'.entrance? = c.entrance? := by
  funext n
  have hnames := SameNames.of_bare h
  rw [entrance?, entrance?, hnames.find?_eq, hnames.opening?_eq, firstBlock?_eq h]

/-- The catalog with a slot that leads into a sentence. -/
def enter (c : Procedures) (j : SentenceId) (k : SlotId) : Procedures :=
  { c with sentences := c.sentences.modify j fun t => { t with entry := some k } }

theorem bare_enter (c : Procedures) (j : SentenceId) (k : SlotId) :
    (c.enter j k).bare = c.bare := by
  simp only [enter, bare, mk.injEq, true_and]
  refine Array.ext_getElem? fun i => ?_
  rw [Array.getElem?_map, Array.getElem?_map, Array.getElem?_modify]
  split
  · cases c.sentences[i]? <;> rfl
  · rfl

theorem exists_of_getElem?_enter {i j : SentenceId} {k : SlotId} {t' : Sentence}
    (h : (c.enter j k).sentences[i]? = some t') : ∃ t, c.sentences[i]? = some t ∧
      t' = if j = i then { t with entry := some k } else t := by
  rw [enter, Array.getElem?_modify] at h
  split at h
  · next hji =>
    obtain ⟨t, ht, rfl⟩ := Option.map_eq_some_iff.1 h
    exact ⟨t, ht, by rw [if_pos hji]⟩
  · next hji => exact ⟨t', h, by rw [if_neg hji]⟩

theorem size_eq_of_bare (h : c'.bare = c.bare) : c'.sentences.size = c.sentences.size := by
  have hsize := congrArg (fun d : Procedures => d.sentences.size) h
  simpa [bare] using hsize

/-- A name stands for a procedure that is listed under it. -/
theorem mem_of_find? (hc : Sound c) (h : c.find? n = some p) :
    p ∈ c.index.find (foldCase n.name) := by
  obtain ⟨r, hok, hmem⟩ := exists_resolve_eq_ok hc n
  rw [find?, hok] at h
  cases r with
  | unique q => exact Option.some.inj h ▸ hmem q rfl
  | absent => exact nomatch h
  | ambiguous k => exact nomatch h

theorem find?_lt (hc : Sound c) (h : c.find? n = some p) : p < c.procedures.size :=
  hc.index_lt _ p (mem_of_find? hc h)

end Procedures

/-- What occurs once is kept. -/
theorem eraseDups_of_nodup {α : Type} [BEq α] [LawfulBEq α] {l : List α} (h : l.Nodup) :
    l.eraseDups = l := by
  induction l with
  | nil => rfl
  | cons a l ih =>
    obtain ⟨ha, hl⟩ := List.nodup_cons.1 h
    have hfilter : l.filter (fun b => !b == a) = l := List.filter_eq_self.2 fun b hb => by
      simpa using fun heq : b = a => ha (heq ▸ hb)
    rw [List.eraseDups_cons, hfilter, ih hl]

/-- The slots of the edges that lead from a block. -/
def Graph.edgeSlots (g : Graph) (b : BlockId) : List SlotId :=
  (g.blocks[b]?.map (·.successors)).getD []

/-- An edge leads somewhere. -/
theorem Graph.WellFormed.exists_of_mem_edgeSlots {g : Graph} (hg : Sound g) {b : BlockId}
    {k : SlotId} (hk : k ∈ g.edgeSlots b) : ∃ x, g.slots[k]? = some x := by
  rw [Graph.edgeSlots] at hk
  cases hblock : g.blocks[b]? with
  | none => rw [hblock] at hk; exact nomatch hk
  | some block =>
    rw [hblock] at hk
    exact ⟨_, Array.getElem?_eq_getElem (hg.slot_lt hblock k hk)⟩

theorem Graph.next_eq_edgeSlots (g : Graph) (b : BlockId) :
    (g.chart b).next = (g.edgeSlots b).filterMap (g.slots[·]?) := by
  rw [edgeSlots]
  cases hblock : g.blocks[b]? with
  | none => rw [chart_of_size_le (Array.getElem?_eq_none_iff.1 hblock)]; rfl
  | some block => rw [chart_of_getElem? hblock]; rfl

namespace Scope

/-- The scope with further problems reported. -/
def reporting (s : Scope) (ps : List Problem) : Scope := { s with problems := s.problems ++ ps }

@[simp] theorem reporting_nil (s : Scope) : s.reporting [] = s := by
  rw [reporting, List.append_nil]

@[simp] theorem reporting_reporting (s : Scope) (ps qs : List Problem) :
    (s.reporting ps).reporting qs = s.reporting (ps ++ qs) := by
  rw [reporting, reporting, reporting, List.append_assoc]

theorem WellFormed.reporting {s : Scope} (hs : Sound s) (ps : List Problem) :
    Sound (s.reporting ps) := { hs with }

/-- Every slot that leads into a sentence leads to its first block. -/
def Entered (s : Scope) : Prop := ∀ {j : SentenceId} {t : Sentence} {k : SlotId},
  s.procedures.sentences[j]? = some t → t.entry = some k →
    ∃ b, t.firstBlock? = some b ∧ s.graph.slots[k]? = some b

/-- The slot leads into a sentence. -/
def IsEntry (s : Scope) (k : SlotId) : Prop :=
  ∃ (j : SentenceId) (t : Sentence), s.procedures.sentences[j]? = some t ∧ t.entry = some k

/-- The slots that lead into sentences still do so. -/
def KeepsEntries (s s' : Scope) : Prop := ∀ (j : SentenceId) (t : Sentence) (k : SlotId),
  s.procedures.sentences[j]? = some t → t.entry = some k →
    ∃ t', s'.procedures.sentences[j]? = some t' ∧ t'.entry = some k

theorem KeepsEntries.isEntry {s s' : Scope} (h : s.KeepsEntries s') {k : SlotId}
    (hk : s.IsEntry k) : s'.IsEntry k := by
  obtain ⟨j, t, ht, hentry⟩ := hk
  exact ⟨j, h j t k ht hentry⟩

/-- Nothing has changed but that the edges `E` are drawn and the problems `ps` reported. -/
structure Links (s s' : Scope) (E : ℕ → ℕ → Prop) (ps : List Problem) : Prop where
  sound : Sound s'
  entered : s'.Entered
  bare : s'.procedures.bare = s.procedures.bare
  size : s'.graph.size = s.graph.size
  slots : ∀ {k : SlotId} {b : BlockId}, s.graph.slots[k]? = some b → s'.graph.slots[k]? = some b
  groups : s'.graph.groups = s.graph.groups
  roots : s'.graph.roots = s.graph.roots
  /-- Edges are added behind those that there are. -/
  chart : ∀ b, ∃ more, s'.graph.chart b =
    { s.graph.chart b with next := (s.graph.chart b).next ++ more } ∧ ∀ c ∈ more, E b c
  next : ∀ b c, E b c → c ∈ (s'.graph.chart b).next
  entries : s.KeepsEntries s'
  /-- No block leads into a sentence by the same slot twice. -/
  slotted : ∀ b, ∃ more, s'.graph.edgeSlots b = s.graph.edgeSlots b ++ more ∧ more.Nodup ∧
    ∀ k ∈ more, k ∉ s.graph.edgeSlots b ∧ s'.IsEntry k
  problems : s'.problems = s.problems ++ ps

namespace Links

variable {s s₁ s₂ s' : Scope} {E E' : ℕ → ℕ → Prop} {ps ps' : List Problem} {b c : ℕ}

theorem refl (hs : Sound s) (he : s.Entered) : Links s s (fun _ _ => False) [] where
  sound := hs
  entered := he
  bare := rfl
  size := rfl
  slots h := h
  groups := rfl
  roots := rfl
  chart b := ⟨[], by rw [List.append_nil], by simp⟩
  next _ _ h := h.elim
  entries _ _ _ ht hk := ⟨_, ht, hk⟩
  slotted b := ⟨[], (List.append_nil _).symm, .nil, by simp⟩
  problems := (List.append_nil _).symm

theorem nodes (h : Links s s' E ps) (b : ℕ) :
    (s'.graph.chart b).nodes = (s.graph.chart b).nodes := by
  obtain ⟨more, hchart, -⟩ := h.chart b
  rw [hchart]

theorem mem_next (h : Links s s' E ps) :
    c ∈ (s'.graph.chart b).next ↔ c ∈ (s.graph.chart b).next ∨ E b c := by
  obtain ⟨more, hchart, hmore⟩ := h.chart b
  constructor
  · rw [hchart]
    exact fun hc => (List.mem_append.1 hc).imp id (hmore c)
  · rintro (hc | hc)
    · rw [hchart]
      exact List.mem_append_left _ hc
    · exact h.next b c hc

/-- Where no edge is added nothing changes. -/
theorem chart_eq (h : Links s s' E ps) (hb : ∀ c, ¬ E b c) :
    s'.graph.chart b = s.graph.chart b := by
  obtain ⟨more, hchart, hmore⟩ := h.chart b
  rw [hchart, List.eq_nil_iff_forall_not_mem.2 fun c hc => hb c (hmore c hc), List.append_nil]

theorem trans (h₁ : Links s s₁ E ps) (h₂ : Links s₁ s₂ E' ps') :
    Links s s₂ (fun b c => E b c ∨ E' b c) (ps ++ ps') where
  sound := h₂.sound
  entered := h₂.entered
  bare := h₂.bare.trans h₁.bare
  size := h₂.size.trans h₁.size
  slots h := h₂.slots (h₁.slots h)
  groups := h₂.groups.trans h₁.groups
  roots := h₂.roots.trans h₁.roots
  chart b := by
    obtain ⟨more₁, hchart₁, hmore₁⟩ := h₁.chart b
    obtain ⟨more₂, hchart₂, hmore₂⟩ := h₂.chart b
    refine ⟨more₁ ++ more₂, by rw [hchart₂, hchart₁, List.append_assoc], fun c hc => ?_⟩
    exact (List.mem_append.1 hc).imp (hmore₁ c) (hmore₂ c)
  next b c h := h.elim (fun h => h₂.mem_next.2 (.inl (h₁.next b c h))) (h₂.next b c)
  entries j t k ht hk := by
    obtain ⟨t₁, ht₁, hk₁⟩ := h₁.entries j t k ht hk
    exact h₂.entries j t₁ k ht₁ hk₁
  slotted b := by
    obtain ⟨more₁, hslots₁, hnodup₁, hmore₁⟩ := h₁.slotted b
    obtain ⟨more₂, hslots₂, hnodup₂, hmore₂⟩ := h₂.slotted b
    rw [hslots₁] at hslots₂ hmore₂
    refine ⟨more₁ ++ more₂, by rw [hslots₂, List.append_assoc],
      List.nodup_append.2 ⟨hnodup₁, hnodup₂, ?_⟩, fun k hk => ?_⟩
    · rintro k hk _ hk' rfl
      exact (hmore₂ k hk').1 (List.mem_append_right _ hk)
    · obtain hk | hk := List.mem_append.1 hk
      · exact (hmore₁ k hk).imp_right h₂.entries.isEntry
      · exact (hmore₂ k hk).imp_left fun hnot hmem => hnot (List.mem_append_left _ hmem)
  problems := by rw [h₂.problems, h₁.problems, List.append_assoc]

theorem congr (h : Links s s' E ps) (hE : ∀ b c, E b c ↔ E' b c) : Links s s' E' ps :=
  (funext fun b => funext fun c => propext (hE b c) : E = E') ▸ h

/-- Reporting draws nothing. -/
theorem report (hs : Sound s) (he : s.Entered) (ps : List Problem) :
    Links s (s.reporting ps) (fun _ _ => False) ps where
  sound := hs.reporting ps
  entered := he
  bare := rfl
  size := rfl
  slots h := h
  groups := rfl
  roots := rfl
  chart b := ⟨[], by rw [List.append_nil]; rfl, by simp⟩
  next _ _ h := h.elim
  entries _ _ _ ht hk := ⟨_, ht, hk⟩
  slotted b := ⟨[], (List.append_nil _).symm, .nil, by simp⟩
  problems := rfl

/-- Edges that are there already need not be drawn. -/
theorem of_mem (h : Links s s' (fun _ _ => False) ps)
    (hE : ∀ b c, E b c → c ∈ (s.graph.chart b).next) : Links s s' E ps :=
  { h with
    chart := fun b => by
      obtain ⟨more, hchart, hmore⟩ := h.chart b
      exact ⟨more, hchart, fun c hc => (hmore c hc).elim⟩
    next := fun b c hc => h.mem_next.2 (.inl (hE b c hc)) }

/-- The edges of one action after another. -/
theorem forIn {γ : Type} {l : List γ} {f : γ → PUnit → Build (ForInStep PUnit)}
    {E : γ → ℕ → ℕ → Prop} {P : γ → List Problem} (hs : Sound s) (he : s.Entered)
    (hf : ∀ a ∈ l, ∀ s₁ F qs, Links s s₁ F qs → ∃ s₂, f a ⟨⟩ s₁ = .ok (.yield ⟨⟩, s₂) ∧
      Links s₁ s₂ (E a) (P a)) :
    ∃ s', ForIn.forIn l PUnit.unit f s = .ok (⟨⟩, s') ∧
      Links s s' (fun b c => ∃ a ∈ l, E a b c) (l.flatMap P) := by
  suffices h : ∀ pre, ∀ s₁ F qs, Links s s₁ F qs → pre ⊆ l → ∃ s', ForIn.forIn pre PUnit.unit f s₁ =
      .ok (⟨⟩, s') ∧ Links s₁ s' (fun b c => ∃ a ∈ pre, E a b c) (pre.flatMap P) from
    h l s _ _ (refl hs he) (List.Subset.refl l)
  intro pre
  induction pre with
  | nil => exact fun s₁ F qs h _ => ⟨s₁, rfl, (refl h.sound h.entered).congr (by simp)⟩
  | cons a rest ih =>
    intro s₁ F qs h hsub
    obtain ⟨s₂, hrun, h₂⟩ := hf a (hsub (by simp)) s₁ F qs h
    obtain ⟨s₃, hrest, h₃⟩ := ih s₂ _ _ (h.trans h₂) (List.subset_of_cons_subset hsub)
    refine ⟨s₃, ?_, (h₂.trans h₃).congr fun b c => by simp⟩
    rw [List.forIn_cons, run_bind hrun]
    exact hrest

end Links

/-! ### No edge twice -/

/-- Slots that lead into sentences lead to one block only if they are the same. -/
theorem Entered.eq_of_isEntry {s : Scope} {k k' : SlotId} {b : BlockId} (he : s.Entered)
    (hs : s.procedures.BeginApart) (hk : s.IsEntry k) (hk' : s.IsEntry k')
    (hb : s.graph.slots[k]? = some b) (hb' : s.graph.slots[k']? = some b) : k = k' := by
  obtain ⟨j, t, ht, hentry⟩ := hk
  obtain ⟨j', t', ht', hentry'⟩ := hk'
  have hfirst : ∀ {j t k}, s.procedures.sentences[j]? = some t → t.entry = some k →
      s.graph.slots[k]? = some b → s.procedures.firstBlock? j = some b := fun ht hentry hb => by
    obtain ⟨b', hfirst, hslot⟩ := he ht hentry
    obtain rfl := Option.some.inj (hb.symm.trans hslot)
    rw [Procedures.firstBlock?, ht]
    exact hfirst
  obtain rfl := hs (hfirst ht hentry hb) (hfirst ht' hentry' hb')
  obtain rfl := Option.some.inj (ht.symm.trans ht')
  exact Option.some.inj (hentry.symm.trans hentry')

/-- A block leads into sentences by their entries, and nowhere twice. -/
structure LeadsOnce (s : Scope) (b : BlockId) : Prop where
  entry : ∀ {k : SlotId} {c : BlockId} {j : SentenceId}, k ∈ s.graph.edgeSlots b →
    s.graph.slots[k]? = some c → s.procedures.firstBlock? j = some c → s.IsEntry k
  nodup : (s.graph.chart b).next.Nodup

namespace Links

variable {s s' : Scope} {E : ℕ → ℕ → Prop} {ps : List Problem} {b c : ℕ}

/-- Edges that are added lead nowhere twice. -/
theorem leadsOnce (h : Links s s' E ps) (hs : Sound s) (hapart : s.procedures.BeginApart)
    (hb : s.LeadsOnce b) : s'.LeadsOnce b := by
  have hfirst := Procedures.firstBlock?_eq h.bare
  obtain ⟨more, hslots, hnodup, hmore⟩ := h.slotted b
  have hold : ∀ {k}, k ∈ s.graph.edgeSlots b → s'.graph.slots[k]? = s.graph.slots[k]? := by
    intro k hk
    obtain ⟨c, hc⟩ := hs.graph.exists_of_mem_edgeSlots hk
    rw [hc, h.slots hc]
  have hentry : ∀ {k c j}, k ∈ s'.graph.edgeSlots b → s'.graph.slots[k]? = some c →
      s'.procedures.firstBlock? j = some c → s'.IsEntry k := by
    intro k c j hk hc hj
    rw [hslots, List.mem_append] at hk
    obtain hk | hk := hk
    · exact h.entries.isEntry (hb.entry hk (hold hk ▸ hc) (hfirst ▸ hj))
    · exact (hmore k hk).2
  have hapart' : s'.procedures.BeginApart := by rwa [Procedures.BeginApart, hfirst]
  refine ⟨hentry, ?_⟩
  rw [Graph.next_eq_edgeSlots, hslots, List.Nodup, List.pairwise_filterMap, List.pairwise_append]
  refine ⟨?_, hnodup.imp_of_mem fun hk hk' hne c hc c' hc' => ?_, fun k hk k' hk' c hc c' hc' => ?_⟩
  · have hnext := hb.nodup
    rw [Graph.next_eq_edgeSlots, List.Nodup, List.pairwise_filterMap] at hnext
    refine hnext.imp_of_mem fun hk hk' hne c hc c' hc' => ?_
    rw [hold hk] at hc
    rw [hold hk'] at hc'
    exact hne c hc c' hc'
  · rintro rfl
    exact hne (Entered.eq_of_isEntry h.entered hapart' (hmore _ hk).2 (hmore _ hk').2 hc hc')
  · -- an edge that was there already would have been the same
    rintro rfl
    obtain ⟨j, t, ht, hk''⟩ := (hmore k' hk').2
    obtain ⟨b', hb', hslot⟩ := h.entered ht hk''
    obtain rfl := Option.some.inj (hc'.symm.trans hslot)
    have hj : s'.procedures.firstBlock? j = some c := by
      rw [Procedures.firstBlock?, ht]
      exact hb'
    have hk₀ := hentry (hslots ▸ List.mem_append_left more hk) hc hj
    exact (hmore k' hk').1
      (Entered.eq_of_isEntry h.entered hapart' hk₀ (hmore k' hk').2 hc hc' ▸ hk)

/-- If a block is led to one place at most, this comes last unless the block leads there already. -/
theorem next_eq {c? : Option ℕ} {l : List ℕ} (h : Links s s' (fun b' c => b' = b ∧ c? = some c) ps)
    (hnodup : (s'.graph.chart b).next.Nodup) (hl : (s.graph.chart b).next = l.eraseDups) :
    (s'.graph.chart b).next = (l ++ c?.toList).eraseDups := by
  obtain ⟨more, hchart, hmore⟩ := h.chart b
  have hnext : (s'.graph.chart b).next = (s.graph.chart b).next ++ more :=
    congrArg Spot.next hchart
  rw [hnext] at hnodup
  rw [hnext, List.eraseDups_append, ← hl]
  refine congrArg ((s.graph.chart b).next ++ ·) ?_
  cases c? with
  | none => exact List.eq_nil_iff_forall_not_mem.2 fun c hc => nomatch (hmore c hc).2
  | some c =>
    have hall : ∀ x ∈ more, x = c := fun x hx => (Option.some.inj (hmore x hx).2).symm
    have hmem : c ∈ (s.graph.chart b).next ++ more := hnext ▸ h.next b c ⟨rfl, rfl⟩
    have hin : c ∈ l ↔ c ∈ (s.graph.chart b).next := by rw [hl, List.mem_eraseDups]
    obtain ⟨-, hmore', hdisjoint⟩ := List.nodup_append.1 hnodup
    by_cases hc : c ∈ (s.graph.chart b).next
    · have hnil : more = [] := List.eq_nil_iff_forall_not_mem.2 fun x hx =>
        hdisjoint c hc x hx (hall x hx).symm
      simp [hnil, List.removeAll, hin.2 hc]
    · have hsingle : more = [c] := by
        have hc' := (List.mem_append.1 hmem).resolve_left hc
        refine List.perm_singleton.1 ((List.perm_ext_iff_of_nodup hmore'
          (List.nodup_singleton c)).2 fun x => ?_)
        exact ⟨fun hx => by simp [hall x hx], fun hx => List.mem_singleton.1 hx ▸ hc'⟩
      simp [hsingle, List.removeAll, hin, hc, List.eraseDups_cons]

end Links

end Scope

namespace Build

open Scope

variable {s : Scope} {b c : BlockId} {k : SlotId} {j : SentenceId}

/-! ### Names and sentences -/

theorem lookup_eq_ok (hs : Sound s) (n : QualifiedName) (span : Span) : lookup n span s =
    .ok (s.procedures.find? n, s.reporting (s.procedures.complaints n span)) := by
  obtain ⟨r, hok, -⟩ := Procedures.exists_resolve_eq_ok hs.procedures n
  rw [lookup, run_bind (a := s) (t := s) rfl, run_bind (run_lift hok s), Procedures.find?,
    Procedures.complaints, hok]
  cases r with
  | unique p => exact congrArg (fun t => Except.ok (some p, t)) (reporting_nil s).symm
  | absent => rfl
  | ambiguous candidates => rfl

theorem exists_link (hs : Sound s) (he : s.Entered) (hb : b < s.graph.size)
    (hk : s.graph.slots[k]? = some c) (hentry : s.IsEntry k) :
    ∃ r s', editGraph (Graph.link b k) s = .ok (r, s') ∧
      Links s s' (fun b' c' => b' = b ∧ c' = c) [] := by
  obtain ⟨block, hok, hblock⟩ := Graph.exists_block_eq_ok hb
  have hlink : Graph.link b k s.graph = (if block.successors.contains k then
      (pure false : Graph.Edit Bool) else
        (do Graph.modifyBlock b (·.addSuccessor k); return true)) s.graph := by
    refine (run_bind (a := s.graph) (t := s.graph) rfl _).trans ?_
    exact run_bind (run_lift hok s.graph) _
  by_cases hmem : block.successors.contains k = true
  · rw [if_pos hmem] at hlink
    refine ⟨false, s, editGraph_eq_ok hlink, { Links.refl hs he with
      chart := fun b => ⟨[], by rw [List.append_nil], by simp⟩
      next := ?_ }⟩
    rintro _ _ ⟨rfl, rfl⟩
    rw [Graph.chart_of_getElem? hblock]
    exact List.mem_filterMap.2 ⟨k, List.contains_iff_mem.1 hmem, hk⟩
  · obtain ⟨g', hadd, hedit, hslots⟩ := Graph.edited_addSuccessor none hs.graph hb hk
    rw [if_neg hmem, run_bind hadd] at hlink
    have hchart : ∀ b', g'.chart b' = if b' = b then
        { s.graph.chart b' with next := (s.graph.chart b').next ++ [c] } else s.graph.chart b' :=
      fun b' => congrArg (fun Γ => Γ.chart b') (hedit.sketch 0)
    refine ⟨true, _, editGraph_eq_ok hlink,
      { sound := hs.withGraph hedit.sound hedit.le
        entered := fun ht hk' => ?_
        bare := rfl
        size := congrArg (·.size) (hedit.sketch 0)
        slots := fun h => by rw [← h]; exact congrArg (·[_]?) hslots
        groups := hedit.groups
        roots := hedit.draws.roots
        chart := fun b' => ?_
        next := ?_
        entries := fun _ _ _ ht hk => ⟨_, ht, hk⟩
        slotted := fun b' => ?_
        problems := (List.append_nil _).symm }⟩
    · obtain ⟨b', hb', hslot⟩ := he ht hk'
      exact ⟨b', hb', by rw [← hslot]; exact congrArg (·[_]?) hslots⟩
    · by_cases hb' : b' = b
      · exact ⟨[c], by rw [hchart, if_pos hb'], by simpa using hb'⟩
      · exact ⟨[], by rw [hchart, if_neg hb', List.append_nil], by simp⟩
    · rintro _ _ ⟨rfl, rfl⟩
      rw [hchart, if_pos rfl]
      simp
    · obtain ⟨-, hmodify⟩ := (Graph.modifyBlock_eq_ok_iff _ _ _ _).1 hadd
      simp only [Graph.edgeSlots, hmodify, Array.getElem?_modify]
      by_cases hb' : b = b'
      · subst hb'
        refine ⟨[k], by simp [hblock, Block.addSuccessor], List.nodup_singleton k, fun k' hk' => ?_⟩
        obtain rfl := List.mem_singleton.1 hk'
        exact ⟨by simpa [hblock] using hmem, hentry⟩
      · exact ⟨[], by simp [hb'], .nil, by simp⟩

/-- The slot that leads into a sentence, if it has a block. -/
theorem exists_sentenceEntry (hs : Sound s) (he : s.Entered)
    (hj : j < s.procedures.sentences.size) : ∃ k? s', sentenceEntry j s = .ok (k?, s') ∧
      Links s s' (fun _ _ => False) [] ∧
      (k? = none ∧ s.procedures.firstBlock? j = none ∨
        ∃ k b, k? = some k ∧ s.procedures.firstBlock? j = some b ∧
          s'.graph.slots[k]? = some b ∧ s'.IsEntry k) := by
  obtain ⟨t, hok, ht⟩ := Procedures.exists_sentence_eq_ok hj
  have hfirst : s.procedures.firstBlock? j = t.firstBlock? := by
    rw [Procedures.firstBlock?, ht]
    rfl
  have hrun : sentenceEntry j s = _ :=
    (run_bind (a := s) (t := s) rfl _).trans (run_bind (run_lift hok s) _)
  rw [hfirst]
  cases hentry : t.entry with
  | some k =>
    obtain ⟨b, hb, hk⟩ := he ht hentry
    rw [hentry] at hrun
    exact ⟨some k, s, hrun, .refl hs he, .inr ⟨k, b, rfl, hb, hk, j, t, ht, hentry⟩⟩
  | none =>
    cases hb : t.firstBlock? with
    | none =>
      rw [hentry, hb] at hrun
      exact ⟨none, s, hrun, .refl hs he, .inl ⟨rfl, rfl⟩⟩
    | some b =>
      rw [hentry, hb] at hrun
      have hlt := (hs.sentence ht).blocks b (List.mem_of_head? hb)
      obtain ⟨g', hslot, hedit, hk⟩ := Graph.exists_newSlot_edited none hs.graph hlt
      have hmodify : editProcedures (Procedures.modifySentence j fun t =>
          { t with entry := some s.graph.slots.size }) { s with graph := g' } =
            .ok ((), { s with
              graph := g', procedures := s.procedures.enter j s.graph.slots.size }) := by
        simp only [editProcedures, Procedures.modifySentence, hj, if_true]
        rfl
      have hrun' : sentenceEntry j s = .ok (some s.graph.slots.size,
          { s with graph := g', procedures := s.procedures.enter j s.graph.slots.size }) := by
        refine hrun.trans ((run_bind (editGraph_eq_ok hslot) _).trans ?_)
        exact (run_bind hmodify _).trans rfl
      obtain ⟨hsound, -, -⟩ := (sentenceEntry_faultless hj).of_eq_ok hs hrun'
      have hchart : g'.chart = s.graph.chart := congrArg (·.chart) (hedit.sketch 0)
      refine ⟨_, _, hrun',
        { sound := hsound
          entered := fun {i t' k} ht' hk' => ?_
          bare := Procedures.bare_enter _ _ _
          size := congrArg (·.size) (hedit.sketch 0)
          slots := hedit.draws.slots
          groups := hedit.groups
          roots := hedit.draws.roots
          chart := fun b' => ⟨[], by rw [hchart, List.append_nil], by simp⟩
          next := fun _ _ h => h.elim
          entries := fun i t' k ht' hk' => ⟨t', ?_, hk'⟩
          slotted := fun b' => ⟨[], ?_, .nil, by simp⟩
          problems := (List.append_nil _).symm }, .inr ⟨_, b, rfl, rfl, hk, j,
            { t with entry := some s.graph.slots.size }, ?_, rfl⟩⟩
      rotate_left
      · have hij : j ≠ i := by
          rintro rfl
          rw [Option.some.inj (ht.symm.trans ht'), hk'] at hentry
          cases hentry
        change (s.procedures.sentences.modify j _)[i]? = some t'
        rw [Array.getElem?_modify, if_neg hij, ht']
      · obtain ⟨-, rfl⟩ := Prod.mk.inj (Except.ok.inj hslot)
        exact (List.append_nil _).symm
      · change (s.procedures.sentences.modify j _)[j]? = _
        rw [Array.getElem?_modify, if_pos rfl, ht]
        rfl
      obtain ⟨t₀, ht₀, rfl⟩ := Procedures.exists_of_getElem?_enter ht'
      split at hk'
      · next hij =>
        obtain rfl := Option.some.inj hk'
        obtain rfl : t = t₀ := Option.some.inj (ht.symm.trans (hij ▸ ht₀))
        exact ⟨b, by rw [if_pos hij]; exact hb, hk⟩
      · next hij =>
        obtain ⟨b', hb', hslot'⟩ := he ht₀ hk'
        exact ⟨b', by rw [if_neg hij]; exact hb', hedit.draws.slots hslot'⟩

/-- A block is led into a sentence. -/
theorem exists_linkToSentence (hs : Sound s) (he : s.Entered) (hb : b < s.graph.size)
    (hj : j < s.procedures.sentences.size) : ∃ s', linkToSentence b j s = .ok ((), s') ∧
      Links s s' (fun b' c => b' = b ∧ s.procedures.firstBlock? j = some c) [] := by
  obtain ⟨k?, s₁, hentry, h₁, ⟨rfl, hfirst⟩ | ⟨k, c, rfl, hfirst, hk, hslot⟩⟩ :=
    exists_sentenceEntry hs he hj
  · refine ⟨s₁, (run_bind hentry _).trans rfl, h₁.congr fun b' c => ?_⟩
    simp [hfirst]
  · obtain ⟨r, s₂, hlink, h₂⟩ := exists_link h₁.sound h₁.entered (hb.trans_eq h₁.size.symm)
      hk hslot
    refine ⟨s₂, (run_bind hentry _).trans ((run_bind hlink _).trans rfl),
      (h₁.trans h₂).congr fun b' c' => ?_⟩
    rw [hfirst, Option.some.injEq, false_or, eq_comm (a := c)]

end Build

end CobolFlow
