import CobolFlow.Proofs.Division.Items
import CobolFlow.Proofs.Faultless.Procedures
import CobolFlow.Proofs.Trace.Since

/-!
# The plan of a division

What a division's headings and periods amount to before any block is drawn: which procedures and
sentences there are, in which passages control runs through the sentences, and where each passage
goes on. A plan depends on the source alone. It is the same whatever the lowering, and the blocks
that are drawn for it differ only inside the passages.

## Main definitions

* `Procedures.erase` — a catalog without its blocks
* `Passage`, `Plan` — the passages of a division, and the catalog they belong to
* `Plan.step`, `DivisionText.plan` — the plan of a list of items and of a division
-/

namespace CobolFlow

/-- The catalog without what is known of blocks and edges. -/
def Procedures.erase (c : Procedures) : Procedures :=
  { c with sentences := c.sentences.map fun t => { t with entry := none, blocks := [] } }

namespace Procedures

/-- What is known of blocks and edges is lost. -/
theorem erase_modify {f : Sentence → Sentence}
    (hf : ∀ t, ({ f t with entry := none, blocks := [] } : Sentence) =
      { t with entry := none, blocks := [] }) (c : Procedures) (i : SentenceId) :
    ({ c with sentences := c.sentences.modify i f } : Procedures).erase = c.erase := by
  simp only [erase, mk.injEq, true_and]
  refine Array.ext_getElem? fun j => ?_
  rw [Array.getElem?_map, Array.getElem?_map, Array.getElem?_modify]
  split
  · cases c.sentences[j]? with
    | none => rfl
    | some t => exact congrArg some (hf t)
  · rfl

theorem erase_list (c : Procedures) (i : Option SentenceId) (blocks : List BlockId) :
    (c.list i blocks).erase = c.erase := by
  cases i with
  | none => rfl
  | some i =>
    exact erase_modify (f := fun t => { t with blocks := t.blocks ++ blocks }) (fun _ => rfl) c i

/-- A change that does not look at blocks and edges. -/
def Blind {α : Type} (e : Edit α) : Prop :=
  ∀ (c c' : Procedures) (a : α), e c = .ok (a, c') → e c.erase = .ok (a, c'.erase)

theorem Blind.bind {α β : Type} {e : Edit α} {f : α → Edit β} (he : Blind e)
    (hf : ∀ a, Blind (f a)) : Blind (e >>= f) := by
  intro c c' b h
  obtain ⟨⟨a, c₁⟩, h₁, h₂⟩ : ∃ p, e c = .ok p ∧ f p.1 p.2 = .ok (b, c') := by
    change (e c >>= fun p => f p.1 p.2) = _ at h
    cases hc : e c with
    | error fault =>
      rw [hc] at h
      exact nomatch h
    | ok p => exact ⟨p, rfl, by simpa [hc] using h⟩
  rw [run_bind (he c c₁ a h₁)]
  exact hf a c₁ c' b h₂

theorem blind_pure {α : Type} (a : α) : Blind (pure a) := by
  rintro c c' b ⟨⟩
  rfl

theorem blind_addPart (p : ProcedureId) (part : Part) : Blind (addPart p part) := by
  intro c c' _ h
  rw [addPart, modifyProcedure] at h ⊢
  split at h
  · next hp =>
    obtain ⟨rfl⟩ := h
    exact if_pos hp
  · simp at h

theorem blind_declare (make : ProcedureId → Procedure) : Blind (declare make) := by
  rintro c c' b ⟨⟩
  rfl

theorem blind_listName (name : String) (p : ProcedureId) : Blind (listName name p) := by
  rintro c c' b ⟨⟩
  rfl

theorem blind_rootSection : Blind rootSection := by
  intro c c' a h
  cases hroot : c.procedures[0]? with
  | none =>
    have hrun : ∀ d : Procedures, d.procedures[0]? = none → rootSection d =
        declare (fun id => { id, name := rootSectionName, kind := .sectionProcedure }) d := by
      intro d hd
      rw [rootSection, run_bind (a := d) (t := d) rfl]
      simp only [hd]
    rw [hrun c hroot] at h
    rw [hrun c.erase hroot]
    exact blind_declare _ c c' a h
  | some root =>
    have hrun : ∀ d : Procedures, d.procedures[0]? = some root →
        rootSection d = .ok (root.id, d) := by
      intro d hd
      rw [rootSection, run_bind (a := d) (t := d) rfl]
      simp only [hd]
      rfl
    rw [hrun c hroot] at h
    obtain ⟨rfl, rfl⟩ := Prod.mk.inj (Except.ok.inj h)
    exact hrun c.erase hroot

theorem blind_addSection (name : String) (declaratives : Bool) (span : Span) :
    Blind (addSection name declaratives span) :=
  (blind_declare _).bind fun p => (blind_listName name p).bind fun _ => blind_pure p

theorem blind_addParagraph (name : String) (owner : Option ProcedureId) (declaratives : Bool)
    (span : Span) : Blind (addParagraph name owner declaratives span) := by
  refine (blind_declare _).bind fun p => ?_
  cases owner with
  | none => exact (blind_listName name p).bind fun _ => blind_pure p
  | some s =>
    exact (blind_addPart s _).bind fun _ => (blind_listName name p).bind fun _ => blind_pure p

theorem blind_addSentence (owner : Option ProcedureId) (declaratives : Bool) :
    Blind (addSentence owner declaratives) := by
  refine Blind.bind ?_ fun s => ?_
  · rintro c c' i h
    obtain ⟨rfl, rfl⟩ := Prod.mk.inj (Except.ok.inj h)
    refine congrArg Except.ok (Prod.ext ?_ ?_) <;> simp [erase]
  · cases owner with
    | none => exact blind_pure s
    | some p => exact (blind_addPart p _).bind fun _ => blind_pure s

end Procedures

/-- A run of statements without a period inside: a sentence, or what stands between DECLARATIVES
and the first sentence after them. -/
structure Passage where
  /-- None right after the DECLARATIVES. -/
  sentence : Option SentenceId
  /-- The number of the first node. -/
  id : NodeId
  text : SentenceText
  /-- A USE procedure begins here, which control enters from outside. -/
  entered : Bool
  /-- The name of the procedure. -/
  tag : Option String

/-- A division as far as it has been read. -/
structure Plan where
  catalog : Procedures
  passages : List Passage
  /-- From the end of which passages control falls into which. -/
  falls : List (ℕ × ℕ)
  /-- The last passage is a sentence that is open, and nothing stands in it yet. -/
  begun : Bool
  currentSection : Option ProcedureId
  currentParagraph : Option ProcedureId
  /-- Inside the DECLARATIVES, the passage that stands before them. -/
  declaratives : Option ℕ
  /-- The next sentence begins a USE procedure. -/
  declarativeEntry : Bool

namespace Plan

/-- A change of the catalog. -/
def edit {α : Type} (p : Plan) (e : Procedures.Edit α) (go : α → Procedures → Plan) : Plan :=
  match e p.catalog with
  | .ok (a, c) => go a c
  | .error _ => p

/-- The name of the innermost procedure that the program itself declares. -/
def tag (p : Plan) : Option String :=
  match (p.currentParagraph.or p.currentSection).bind (p.catalog.procedures[·]?) with
  | some procedure =>
    if procedure.name == rootSectionName then none else some procedure.name
  | none => none

/-- Adds a passage, into which control falls from the end of `origin`. -/
def add (p : Plan) (origin : Option ℕ) (q : Passage) : Plan :=
  { p with
    passages := p.passages ++ [q]
    falls := p.falls ++ (origin.map fun k => (k, p.passages.length)).toList }

/-- The number of the last passage. -/
def last? (p : Plan) : Option ℕ :=
  if p.passages.isEmpty then none else some (p.passages.length - 1)

/-- Opens a sentence, of which nothing has been read. -/
def openSentence (p : Plan) (id : NodeId) : Plan :=
  let owner := p.currentParagraph.or p.currentSection
  p.edit (Procedures.addSentence owner p.declaratives.isSome) fun i catalog =>
    let p := { p with catalog, begun := true }
    { p.add (if p.declarativeEntry then none else p.last?)
        { sentence := some i, id, text := [], entered := p.declarativeEntry, tag := p.tag }
      with declarativeEntry := false }

/-- Reads the open sentence up to its period. -/
def readSentence (p : Plan) (id : NodeId) (text : SentenceText) : Plan :=
  { p with
    passages := p.passages.dropLast ++
      (p.passages.getLast?.map fun q => { q with id, text }).toList
    begun := false }

/-- What is planned where a division begins. -/
def start (program : Option String) : Plan :=
  let p : Plan :=
    { catalog := { program }, passages := [], falls := [], begun := false, currentSection := none
      currentParagraph := none, declaratives := none, declarativeEntry := false }
  p.edit Procedures.rootSection fun root catalog =>
    ({ p with catalog, currentSection := some root } : Plan).openSentence 0

/-- Reads one item. -/
def step (p : Plan) : Item → Plan
  | .sentence id text => (if p.begun then p else p.openSentence id).readSentence id text
  | .enter (.sectionHeader name span) _ =>
    p.edit (Procedures.addSection name p.declaratives.isSome span) fun i catalog =>
      { p with
        catalog
        begun := false
        currentSection := some i
        currentParagraph := none
        declarativeEntry := p.declarativeEntry || p.declaratives.isSome }
  | .enter (.paragraphHeader name span) _ =>
    p.edit (Procedures.addParagraph name p.currentSection p.declaratives.isSome span)
      fun i catalog => { p with catalog, begun := false, currentParagraph := some i }
  | .enter .declaratives _ => { p with declaratives := p.last? }
  | .leave .declaratives _ =>
    p.edit Procedures.rootSection fun root catalog =>
      let p' : Plan :=
        { p with
          catalog
          declarativeEntry := false
          currentSection := some root
          currentParagraph := none
          declaratives := none }
      match p.declaratives with
      | some origin =>
        p'.add (some origin)
          { sentence := none, id := 0, text := [], entered := false, tag := p'.tag }
      | none => p'
  | .leave _ _ => p

/-- Whether an item may come next. DECLARATIVES consist of sections. -/
def Allows (p : Plan) : Item → Prop
  | .sentence _ _ => p.begun → p.declaratives = none
  | .leave .declaratives _ => ¬ p.begun
  | _ => True

/-- Reads several items. -/
def read (p : Plan) (items : List Item) : Plan := items.foldl step p

/-- Whether some items may come next. -/
def AllowsAll (p : Plan) : List Item → Prop
  | [] => True
  | item :: rest => p.Allows item ∧ (p.step item).AllowsAll rest

end Plan

namespace Plan

variable {p : Plan} {item : Item} {items : List Item}

theorem edit_cases {P : Plan → Prop} {α : Type} (e : Procedures.Edit α)
    {go : α → Procedures → Plan} (hgo : ∀ a c, P (go a c)) (hp : P p) : P (p.edit e go) := by
  rw [edit]
  split
  · exact hgo _ _
  · exact hp

/-- Once the first sentence is closed, nothing has to be watched. -/
theorem begun_step (hp : p.begun = false) (item : Item) : (p.step item).begun = false := by
  cases item with
  | sentence id text => rfl
  | enter heading id =>
    cases heading with
    | declaratives => exact hp
    | sectionHeader name span =>
      exact edit_cases (P := fun p => p.begun = false) _ (fun _ _ => rfl) hp
    | paragraphHeader name span =>
      exact edit_cases (P := fun p => p.begun = false) _ (fun _ _ => rfl) hp
  | leave heading id =>
    cases heading with
    | declaratives =>
      refine edit_cases (P := fun p => p.begun = false) _ (fun _ _ => ?_) hp
      cases p.declaratives <;> exact hp
    | sectionHeader name span => exact hp
    | paragraphHeader name span => exact hp

theorem begun_read (hp : p.begun = false) (items : List Item) : (p.read items).begun = false := by
  induction items generalizing p with
  | nil => exact hp
  | cons item rest ih => exact ih (begun_step hp item)

theorem allows_of_closed (hp : p.begun = false) : p.Allows item := by
  cases item with
  | sentence id text => exact fun htrue => nomatch hp.symm.trans htrue
  | enter heading id => trivial
  | leave heading id =>
    cases heading with
    | declaratives => exact fun htrue => nomatch hp.symm.trans htrue
    | sectionHeader name span => trivial
    | paragraphHeader name span => trivial

theorem allowsAll_of_closed (hp : p.begun = false) (items : List Item) : p.AllowsAll items := by
  induction items generalizing p with
  | nil => trivial
  | cons item rest ih => exact ⟨allows_of_closed hp, ih (begun_step hp item)⟩

theorem allowsAll_append {items' : List Item} :
    p.AllowsAll (items ++ items') ↔ p.AllowsAll items ∧ (p.read items).AllowsAll items' := by
  induction items generalizing p with
  | nil => exact (iff_of_eq (true_and _)).symm
  | cons item rest ih => exact (and_congr_right fun _ => ih).trans and_assoc.symm

end Plan

/-- Neither begins nor ends DECLARATIVES. -/
def Item.IsPlain : Item → Prop
  | .enter .declaratives _ => False
  | .leave .declaratives _ => False
  | _ => True

namespace Plan

variable {p : Plan} {item : Item} {items : List Item}

/-- Only their own headings open and close DECLARATIVES. -/
theorem declaratives_step (p : Plan) (hitem : item.IsPlain) :
    (p.step item).declaratives = p.declaratives := by
  cases item with
  | sentence id text =>
    rw [step]
    split
    · rfl
    · exact edit_cases (P := fun q => (q.readSentence id text).declaratives = p.declaratives) _
        (fun _ _ => rfl) rfl
  | enter heading id =>
    cases heading with
    | declaratives => exact hitem.elim
    | sectionHeader name span =>
      exact edit_cases (P := fun q => q.declaratives = p.declaratives) _ (fun _ _ => rfl) rfl
    | paragraphHeader name span =>
      exact edit_cases (P := fun q => q.declaratives = p.declaratives) _ (fun _ _ => rfl) rfl
  | leave heading id =>
    cases heading with
    | declaratives => exact hitem.elim
    | sectionHeader name span => rfl
    | paragraphHeader name span => rfl

theorem declaratives_read (p : Plan) (hitems : ∀ item ∈ items, item.IsPlain) :
    (p.read items).declaratives = p.declaratives := by
  induction items generalizing p with
  | nil => rfl
  | cons item rest ih =>
    obtain ⟨hitem, hrest⟩ := List.forall_mem_cons.1 hitems
    exact (ih (p.step item) hrest).trans (p.declaratives_step hitem)

/-- Without DECLARATIVES nothing has to be watched. -/
theorem allowsAll_of_plain (hp : p.declaratives = none) (hitems : ∀ item ∈ items, item.IsPlain) :
    p.AllowsAll items := by
  induction items generalizing p with
  | nil => trivial
  | cons item rest ih =>
    have hitem := hitems item (by simp)
    refine ⟨?_, ih ((p.declaratives_step hitem).trans hp) fun item h => hitems item (by simp [h])⟩
    cases item with
    | sentence id text => exact fun _ => hp
    | enter heading id => trivial
    | leave heading id =>
      cases heading with
      | declaratives => exact hitem.elim
      | sectionHeader name span => trivial
      | paragraphHeader name span => trivial

end Plan

namespace Items

/-- Items among which no DECLARATIVES begin or end. -/
def ArePlain (items : Items) : Prop := ∀ id, ∀ item ∈ (items.run id).1, item.IsPlain

theorem arePlain_sentences (l : List SentenceText) : ArePlain (sentences l) := by
  induction l with
  | nil => exact fun _ item h => nomatch h
  | cons text rest ih =>
    intro id item h
    obtain rfl | h := List.mem_cons.1 h
    · trivial
    · exact ih _ item h

theorem ArePlain.append {items items' : Items} (h : items.ArePlain) (h' : items'.ArePlain) :
    ArePlain (do return (← items) ++ (← items')) := fun _ item hmem =>
  (List.mem_append.1 hmem).elim (h _ item) (h' _ item)

theorem ArePlain.under (heading : Heading) (hne : heading ≠ .declaratives) {items : Items}
    (h : items.ArePlain) : ArePlain (under heading items) := by
  intro id item hmem
  obtain hmem | hmem := List.mem_append.1 (show item ∈
    (Item.enter heading id :: (items.run (id + 1)).1) ++ [Item.leave heading id] from hmem)
  · obtain rfl | hmem := List.mem_cons.1 hmem
    · cases heading <;> trivial
    · exact h _ item hmem
  · obtain rfl := List.mem_singleton.1 hmem
    cases heading <;> trivial

theorem ArePlain.collect {α : Type} {piece : α → Items} (h : ∀ a, (piece a).ArePlain)
    (l : List α) : ArePlain (collect piece l) := by
  induction l with
  | nil => exact fun _ item h => nomatch h
  | cons a rest ih => exact (h a).append ih

theorem arePlain_paragraph (p : ParagraphText) : ArePlain (paragraph p) :=
  (arePlain_sentences p.sentences).under (.paragraphHeader p.name p.span) nofun

theorem arePlain_sectionText (s : SectionText) : ArePlain (sectionText s) :=
  ((arePlain_sentences s.sentences).append (.collect arePlain_paragraph s.paragraphs)).under
    (.sectionHeader s.name s.span) nofun

end Items

namespace DivisionText

/-- The plan of a division whose first item has the given number. -/
def plan (d : DivisionText) (program : Option String) (id : NodeId) : Plan :=
  (Plan.start program).read (d.items.run id).1

theorem arePlain_items {d : DivisionText} (hd : d.declaratives = []) : d.items.ArePlain := by
  intro id
  rw [items, hd]
  exact ((Items.arePlain_sentences d.sentences).append ((Items.ArePlain.collect
    Items.arePlain_paragraph d.paragraphs).append (.collect Items.arePlain_sectionText d.sections)))
    id

/-- DECLARATIVES come first or not at all. They begin with a section. -/
theorem exists_items (d : DivisionText) (id : NodeId) :
    (d.declaratives = [] ∧ ∀ item ∈ (d.items.run id).1, item.IsPlain) ∨
      d.declaratives ≠ [] ∧ ∃ (name : String) (span : Span) (inside rest : List Item),
        (d.items.run id).1 =
          .enter .declaratives id :: (.enter (.sectionHeader name span) (id + 1) :: inside) ++
            [Item.leave .declaratives id] ++ rest ∧
        (∀ item ∈ Item.enter (.sectionHeader name span) (id + 1) :: inside, item.IsPlain) ∧
        ∀ item ∈ rest, item.IsPlain := by
  cases hd : d.declaratives with
  | nil => exact .inl ⟨rfl, arePlain_items hd id⟩
  | cons s sections =>
    refine .inr ⟨nofun, ?_⟩
    rw [items, hd]
    refine ⟨s.name, s.span, _, _, rfl, ?_, ?_⟩
    · exact Items.ArePlain.collect Items.arePlain_sectionText (s :: sections) (id + 1)
    · exact ((Items.arePlain_sentences d.sentences).append ((Items.ArePlain.collect
        Items.arePlain_paragraph d.paragraphs).append
          (.collect Items.arePlain_sectionText d.sections))) _

/-- Every item of a division may come where it does. -/
theorem allowsAll_items (d : DivisionText) (program : Option String) (id : NodeId) :
    (Plan.start program).AllowsAll (d.items.run id).1 := by
  obtain ⟨-, hplain⟩ | ⟨-, name, span, inside, rest, hitems, -, -⟩ := d.exists_items id
  · exact Plan.allowsAll_of_plain rfl hplain
  · rw [hitems]
    exact ⟨trivial, trivial, Plan.allowsAll_of_closed rfl _⟩

end DivisionText

end CobolFlow
