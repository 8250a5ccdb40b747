import CobolFlow.Proofs.Division.Body

/-!
# The statements of a plan

A plan has passages in which there are no statements, where a period stands alone or DECLARATIVES
end. But for these, its passages are the sentences of the division, in the order of the source and
with the same numbers.

## Main definitions

* `Plan.texts`, `Item.texts` — the statements of a plan and of an item

## Main results

* `DivisionText.texts_plan` — nothing of what is read is lost
-/

namespace CobolFlow

/-- The statements of an item, if it has any, with the number of the first node. -/
def Item.texts : Item → List (NodeId × SentenceText)
  | .sentence id text => [(id, text)].filter (!·.2.isEmpty)
  | _ => []

namespace Plan

/-- The statements of the passages that have any, with the number of the first node. -/
def texts (p : Plan) : List (NodeId × SentenceText) :=
  (p.passages.map fun q => (q.id, q.text)).filter (!·.2.isEmpty)

/-- An open sentence is the last passage, and nothing has been read of it. -/
def Neat (p : Plan) : Prop := p.begun = true → ∃ pre q, p.passages = pre ++ [q] ∧ q.text = []

variable {p : Plan}

theorem texts_append_blank {p' : Plan} {q : Passage} (hp : p'.passages = p.passages ++ [q])
    (hq : q.text = []) : p'.texts = p.texts := by
  rw [texts, texts, hp]
  simp [hq]

theorem passages_openSentence (hbegun : p.begun = false) (id : NodeId)
    (hopen : (p.openSentence id).begun = true) : ∃ q, (p.openSentence id).passages =
      p.passages ++ [q] ∧ q.text = [] := by
  rw [openSentence, edit] at hopen ⊢
  split at hopen
  · exact ⟨_, rfl, rfl⟩
  · cases hbegun.symm.trans hopen

theorem texts_readSentence {pre : List Passage} {q : Passage} (hp : p.passages = pre ++ [q])
    (hq : q.text = []) (id : NodeId) (text : SentenceText) :
    (p.readSentence id text).texts = p.texts ++ (Item.sentence id text).texts := by
  have hpassages : (p.readSentence id text).passages = pre ++ [{ q with id, text }] := by
    simp [readSentence, hp]
  rw [texts, texts, hpassages, hp, Item.texts, List.map_append, List.map_append,
    List.filter_append, List.filter_append]
  simp [hq]

theorem passages_edit {α : Type} (e : Procedures.Edit α) {go : α → Procedures → Plan}
    (hgo : ∀ a c, (go a c).passages = p.passages) : (p.edit e go).passages = p.passages :=
  edit_cases (P := fun p' => p'.passages = p.passages) e hgo rfl

theorem neat_of_closed (hp : p.begun = false) : p.Neat := fun htrue => nomatch hp.symm.trans htrue

/-- What is said of the passages is said of the statements, if nothing is said where there are
none. -/
theorem flatMap_texts {α : Type} (p : Plan) (f : NodeId × SentenceText → List α)
    (hf : ∀ id, f (id, []) = []) :
    (p.passages.flatMap fun q => f (q.id, q.text)) = p.texts.flatMap f := by
  rw [texts]
  induction p.passages with
  | nil => rfl
  | cons q rest ih =>
    rw [List.flatMap_cons, ih, List.map_cons, List.filter_cons]
    cases htext : q.text with
    | nil => simp [hf]
    | cons st more => simp

end Plan

namespace Outline

variable {o : Options} {s : Scope} {p : Plan} {chs : List Chapter}

theorem texts_step (h : Outline o s p chs) (hneat : p.Neat) (item : Item)
    (hallows : p.Allows item) :
    (p.step item).texts = p.texts ++ item.texts ∧ (p.step item).Neat := by
  -- what has no statements adds none
  have hsame : ∀ p' : Plan, p'.passages = p.passages → p'.texts = p.texts ++ [] :=
    fun p' hp' => by rw [Plan.texts, hp', List.append_nil, Plan.texts]
  cases item with
  | sentence id text =>
    rw [Plan.step]
    refine ⟨?_, Plan.neat_of_closed rfl⟩
    by_cases hbegun : p.begun = true
    · obtain ⟨pre, q, hp, hq⟩ := hneat hbegun
      rw [if_pos hbegun]
      exact Plan.texts_readSentence hp hq id text
    · have hclosed : p.begun = false := Bool.eq_false_of_not_eq_true hbegun
      obtain ⟨-, -, -, -, -, hopen⟩ := h.exists_openSentence id
      obtain ⟨q, hp, hq⟩ := Plan.passages_openSentence hclosed id hopen
      rw [if_neg hbegun, Plan.texts_readSentence hp hq id text, Plan.texts_append_blank hp hq]
  | enter heading id =>
    cases heading with
    | declaratives => exact ⟨hsame _ rfl, hneat⟩
    | sectionHeader name span =>
      refine ⟨hsame _ (Plan.passages_edit _ fun _ _ => rfl), ?_⟩
      exact Plan.edit_cases (P := Plan.Neat) _ (fun _ _ => Plan.neat_of_closed rfl) hneat
    | paragraphHeader name span =>
      refine ⟨hsame _ (Plan.passages_edit _ fun _ _ => rfl), ?_⟩
      exact Plan.edit_cases (P := Plan.Neat) _ (fun _ _ => Plan.neat_of_closed rfl) hneat
  | leave heading id =>
    cases heading with
    | declaratives =>
      have hclosed : p.begun = false := Bool.eq_false_of_not_eq_true hallows
      refine ⟨Plan.edit_cases (P := fun p' => p'.texts = p.texts ++ []) _ (fun i c => ?_)
        (hsame p rfl), Plan.neat_of_closed (Plan.begun_step hclosed _)⟩
      cases p.declaratives with
      | none => exact hsame _ rfl
      | some origin => exact (Plan.texts_append_blank rfl rfl).trans (List.append_nil _).symm
    | sectionHeader name span => exact ⟨hsame _ rfl, hneat⟩
    | paragraphHeader name span => exact ⟨hsame _ rfl, hneat⟩

theorem texts_read (h : Outline o s p chs) (hneat : p.Neat) (items : List Item)
    (hallows : p.AllowsAll items) : (p.read items).texts = p.texts ++ items.flatMap Item.texts := by
  induction items generalizing s p chs with
  | nil => exact (List.append_nil _).symm
  | cons item rest ih =>
    obtain ⟨htexts, hneat'⟩ := h.texts_step hneat item hallows.1
    obtain ⟨s', chs', -, h', -⟩ := h.exists_item item hallows.1
    have hrest := ih h' hneat' hallows.2
    rw [htexts] at hrest
    rw [List.flatMap_cons, ← List.append_assoc, ← hrest]
    rfl

end Outline

/-- **Nothing of what is read is lost.** -/
theorem DivisionText.texts_plan (d : DivisionText) (program : Option String) (id : NodeId) :
    (d.plan program id).texts = (d.items.run id).1.flatMap Item.texts := by
  have hstart : (Plan.start program).Neat := fun _ => ⟨[], _, rfl, rfl⟩
  have hread := (Outline.start {} program 0).texts_read hstart (d.items.run id).1
    (d.allowsAll_items program id)
  have hnil : (Plan.start program).texts = [] := by
    rw [Plan.start_eq]
    rfl
  rwa [hnil, List.nil_append] at hread

end CobolFlow
