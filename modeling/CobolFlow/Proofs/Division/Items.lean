import CobolFlow.Proofs.Trace.Meaning

/-!
# The items of a division

Above its statements a division is a flat list of items: headings that are entered and left, and
sentences. Nothing of a division's replay is lost in this list, and what has to be known of a
division is proved by induction along it.

## Main definitions

* `Heading`, `Item` — what stands in a division above the statements
* `DivisionText.items` — the items of a division, with the numbers of their nodes

## Main results

* `DivisionText.run_division` — the replay of a division, item by item
-/

namespace CobolFlow

/-- What groups the sentences of a division. -/
inductive Heading
  | declaratives
  | sectionHeader (name : String) (span : Span)
  | paragraphHeader (name : String) (span : Span)

/-- The node of a heading. -/
def Heading.node (h : Heading) (id : NodeId) : Node :=
  match h with
  | .declaratives => { id, kind := .declaratives }
  | .sectionHeader name span => { id, kind := .sectionHeader name, span }
  | .paragraphHeader name span => { id, kind := .paragraphHeader name, span }

/-- A piece of a division above the statements. -/
inductive Item
  | enter (heading : Heading) (id : NodeId)
  | leave (heading : Heading) (id : NodeId)
  /-- A sentence, whose first statement has the given number. -/
  | sentence (id : NodeId) (text : SentenceText)

/-- The replay of an item. -/
def Item.events : Item → List Notification
  | .enter heading id => [.enter (heading.node id)]
  | .leave heading id => [.leave (heading.node id)]
  | .sentence id text => ((Script.sentence text).run id).1

/-- Pieces that are made of items. -/
abbrev Items := Numbered (List Item)

namespace Items

def sentences : List SentenceText → Items
  | [] => pure []
  | text :: rest => do
    let id ← modifyGet fun id => (id, ((Script.sentence text).run id).2)
    return .sentence id text :: (← sentences rest)

/-- A heading around other items. -/
def under (heading : Heading) (inside : Items) : Items := do
  let id ← getModify (· + 1)
  return .enter heading id :: (← inside) ++ [.leave heading id]

/-- The items of several pieces, one after the other. -/
def collect {α : Type} (piece : α → Items) : List α → Items
  | [] => pure []
  | a :: rest => do return (← piece a) ++ (← collect piece rest)

def paragraph (p : ParagraphText) : Items :=
  under (.paragraphHeader p.name p.span) (sentences p.sentences)

def sectionText (s : SectionText) : Items :=
  under (.sectionHeader s.name s.span) do
    return (← sentences s.sentences) ++ (← collect paragraph s.paragraphs)

def declaratives : List SectionText → Items
  | [] => pure []
  | sections => under .declaratives (collect sectionText sections)

end Items

namespace DivisionText

/-- The items of a division. -/
def items (d : DivisionText) : Items := do
  let before ← Items.declaratives d.declaratives
  let body ← Items.sentences d.sentences
  let paragraphs ← Items.collect Items.paragraph d.paragraphs
  return before ++ (body ++ (paragraphs ++ (← Items.collect Items.sectionText d.sections)))

end DivisionText

/-- A script that replays some items. -/
def Script.Lists (script : Script) (items : Items) : Prop :=
  ∀ id, script.run id = ((items.run id).1.flatMap Item.events, (items.run id).2)

namespace Script.Lists

variable {script script' : Script} {items items' : Items}

theorem nil : Lists (pure []) (pure []) := fun _ => rfl

theorem append (h : script.Lists items) (h' : script'.Lists items') :
    Lists (do return (← script) ++ (← script')) (do return (← items) ++ (← items')) := by
  intro id
  rw [Numbered.run_bind (h id), Numbered.run_bind (h' _)]
  change _ = (((items.run id).1 ++ (items'.run (items.run id).2).1).flatMap Item.events, _)
  rw [List.flatMap_append]
  rfl

theorem under (heading : Heading) {kind : NodeKind} {span : Span}
    (hnode : ∀ id, heading.node id = { id, kind, span }) (h : script.Lists items) :
    Lists (Script.node kind span none script) (Items.under heading items) := by
  intro id
  refine (Numbered.run_bind (j := id + 1) rfl _).trans ?_
  refine (Numbered.run_bind (h (id + 1)) _).trans ?_
  change _ = ((Item.enter heading id :: (items.run (id + 1)).1 ++ [Item.leave heading id]).flatMap
    Item.events, _)
  rw [List.flatMap_append, List.flatMap_cons]
  simp only [Item.events, hnode, List.flatMap_singleton]
  rfl

theorem seq_append {pieces pieces' : List Script} (h : (Script.seq pieces).Lists items)
    (h' : (Script.seq pieces').Lists items') :
    Lists (Script.seq (pieces ++ pieces')) (do return (← items) ++ (← items')) := by
  have hseq : Script.seq (pieces ++ pieces') =
      (do return (← Script.seq pieces) ++ (← Script.seq pieces') : Script) := by
    simp [Script.seq]
  rw [hseq]
  exact h.append h'

/-- One piece after the other. -/
theorem cons (h : script.Lists items) {pieces : List Script}
    (h' : (Script.seq pieces).Lists items') :
    Lists (Script.seq (script :: pieces)) (do return (← items) ++ (← items')) := by
  have hseq : Script.seq (script :: pieces) =
      (do return (← script) ++ (← Script.seq pieces) : Script) := by
    simp [Script.seq]
  rw [hseq]
  exact h.append h'

theorem collect {α : Type} {piece : α → Script} {items : α → Items}
    (h : ∀ a, (piece a).Lists (items a)) (l : List α) :
    (Script.seq (l.map piece)).Lists (Items.collect items l) := by
  induction l with
  | nil => exact fun _ => rfl
  | cons a rest ih => exact (h a).cons ih

theorem sentences (l : List SentenceText) :
    (Script.sentences l).Lists (Items.sentences l) := by
  induction l with
  | nil => exact fun _ => rfl
  | cons text rest ih =>
    have hone : (Script.sentence text).Lists (do
        let id ← modifyGet fun id => (id, ((Script.sentence text).run id).2)
        return [.sentence id text]) := by
      intro id
      change _ = ([Item.sentence id text].flatMap Item.events, _)
      rw [List.flatMap_singleton]
      rfl
    exact hone.cons ih

theorem paragraph (p : ParagraphText) : (Script.paragraph p).Lists (Items.paragraph p) :=
  .under (.paragraphHeader p.name p.span) (fun _ => rfl) (.sentences p.sentences)

theorem sectionText (s : SectionText) : (Script.sectionText s).Lists (Items.sectionText s) :=
  .under (.sectionHeader s.name s.span) (fun _ => rfl)
    ((sentences s.sentences).cons (.collect paragraph s.paragraphs))

theorem declaratives (l : List SectionText) :
    (Script.declaratives l).Lists (Items.declaratives l) := by
  cases l with
  | nil => exact .nil
  | cons s rest => exact .under .declaratives (fun _ => rfl) (.collect sectionText (s :: rest))

end Script.Lists

namespace DivisionText

/-- The number after that of the last node. -/
theorem run_division (d : DivisionText) (id : NodeId) :
    (Script.division d).run id =
      (.enter { id, kind := .procedureDivision } ::
        ((d.items.run (id + 1)).1.flatMap Item.events) ++
        [.leave { id, kind := .procedureDivision }], (d.items.run (id + 1)).2) := by
  have hseq : (Script.seq (Script.declaratives d.declaratives :: Script.sentences d.sentences ::
      d.paragraphs.map Script.paragraph ++ d.sections.map Script.sectionText)).Lists d.items :=
    .cons (.declaratives _) (.cons (.sentences _)
      (.seq_append (.collect .paragraph _) (.collect .sectionText _)))
  refine (Numbered.run_bind (j := id + 1) rfl _).trans ?_
  exact (Numbered.run_bind (hseq (id + 1)) _).trans rfl

end DivisionText

end CobolFlow
