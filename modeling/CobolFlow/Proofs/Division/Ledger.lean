import CobolFlow.Proofs.Division.Passes
import CobolFlow.Proofs.Division.Texts
import CobolFlow.Proofs.Division.Units

/-!
# What a division puts aside

The jumps, the ALTERs and the PERFORMs that wait for the end of a division are its landmarks, in the
order of the source. So are the groups: each PERFORM opens one, and their numbers are the numbers of
the PERFORMs.

## Main definitions

* `Landmark.jump?`, `Landmark.call?`, `Landmark.alter?` — the landmarks of one kind
* `ProgramUnit.landmarks` — the landmarks of a whole division

## Main results

* `Draft.jumps`, `Draft.alters`, `Draft.performs`, `Draft.groups`, `Draft.mem_nextSentences`
* `Draft.landmarks` — the landmarks of the chapters are those of the division
-/

namespace CobolFlow

/-- A PERFORM as it stands in the source. -/
structure Call where
  node : NodeId
  span : Span
  range : PerformRange

namespace Landmark

/-- A GO TO at a block. -/
def jump? (e : ℕ × Landmark) : Option PendingJump :=
  match e.2 with
  | .jump node span j => some { node, span, jump := j, block := e.1 }
  | _ => none

def alter? : Landmark → Option PendingAlter
  | .alter span clauses => some { span, clauses }
  | _ => none

def call? : Landmark → Option Call
  | .call node span range => some { node, span, range }
  | _ => none

theorem isLast_of_call? {m : Landmark} {call : Call} (h : m.call? = some call) :
    m.isLast = true := by
  cases m with
  | alter span clauses => exact nomatch h
  | _ => rfl

end Landmark

/-- The call sites among some landmarks. -/
def Landmarks.calls (L : Landmarks) : List (ℕ × Call) :=
  L.filterMap fun e => e.2.call?.map fun call => (e.1, call)

theorem Landmarks.mem_calls {L : Landmarks} {b : ℕ} {call : Call} : (b, call) ∈ L.calls ↔
    ∃ m, (b, m) ∈ L ∧ m.call? = some call := by
  simp [calls, List.mem_filterMap]

theorem Landmarks.map_calls (L : Landmarks) :
    L.calls.map (·.2) = (L.map (·.2)).filterMap Landmark.call? := by
  rw [List.filterMap_map, calls, List.map_filterMap]
  refine List.filterMap_congr fun e _ => ?_
  simp

/-- The `k`-th PERFORM waits with the `k`-th group. -/
def Call.pending (call : Call) (k : ℕ) : PendingPerform :=
  { span := call.span, range := call.range, group := k }

/-- The group that the `k`-th PERFORM opens. -/
def Call.group (call : Call) (callSite : BlockId) (k : ℕ) : Group :=
  { id := k, callSite, node := call.node, range := call.range.display }

/-- A ledger in which the PERFORMs and their groups are the given calls. -/
structure Ledger.Holds (l : Ledger) (jumps : List PendingJump) (alters : List PendingAlter)
    (calls : List (ℕ × Call)) : Prop where
  jumps : l.1.jumps = jumps
  alters : l.1.alters = alters
  performs : l.1.performs = calls.mapIdx fun k e => e.2.pending k
  groups : l.2.toList = calls.mapIdx fun k e => e.2.group e.1 k

namespace Ledger.Holds

variable {l : Ledger} {jumps : List PendingJump} {alters : List PendingAlter}
  {calls : List (ℕ × Call)}

theorem post (h : l.Holds jumps alters calls) (sentence : Option SentenceId) (e : ℕ × Landmark) :
    (l.post sentence e).Holds (jumps ++ (Landmark.jump? e).toList)
      (alters ++ e.2.alter?.toList) (calls ++ Landmarks.calls [e]) := by
  obtain ⟨hjumps, halters, hperforms, hgroups⟩ := h
  have hsize : l.2.size = calls.length := by
    rw [← Array.length_toList, hgroups, List.length_mapIdx]
  obtain ⟨block, m⟩ := e
  cases m with
  | jump node span jump =>
    refine ⟨?_, ?_, ?_, ?_⟩ <;>
      simp [Ledger.post, Landmark.jump?, Landmark.alter?, Landmarks.calls, Landmark.call?, *]
  | nextSentence =>
    cases sentence <;> refine ⟨?_, ?_, ?_, ?_⟩ <;>
      simp [Ledger.post, Landmark.jump?, Landmark.alter?, Landmarks.calls, Landmark.call?, *]
  | call node span range =>
    refine ⟨?_, ?_, ?_, ?_⟩ <;>
      simp [Ledger.post, Landmark.jump?, Landmark.alter?, Landmarks.calls, Landmark.call?,
        List.mapIdx_append, Call.pending, Call.group, *]
  | alter span clauses =>
    refine ⟨?_, ?_, ?_, ?_⟩ <;>
      simp [Ledger.post, Landmark.jump?, Landmark.alter?, Landmarks.calls, Landmark.call?, *]

theorem foldl_post (h : l.Holds jumps alters calls) (sentence : Option SentenceId)
    (L : Landmarks) : (L.foldl (Ledger.post sentence) l).Holds
      (jumps ++ L.filterMap Landmark.jump?) (alters ++ L.filterMap (·.2.alter?))
      (calls ++ L.calls) := by
  induction L generalizing l jumps alters calls with
  | nil => simpa [Landmarks.calls] using h
  | cons e rest ih =>
    have hrest := ih (h.post sentence e)
    have hcalls : Landmarks.calls [e] ++ Landmarks.calls rest = Landmarks.calls (e :: rest) :=
      (List.filterMap_append (l := [e])).symm
    have hjumps : (Landmark.jump? e).toList ++ rest.filterMap Landmark.jump? =
        (e :: rest).filterMap Landmark.jump? := by
      cases hj : Landmark.jump? e <;> simp [hj]
    have halters : e.2.alter?.toList ++ rest.filterMap (·.2.alter?) =
        (e :: rest).filterMap (·.2.alter?) := by
      cases ha : e.2.alter? <;> simp [ha]
    rwa [List.append_assoc, List.append_assoc, List.append_assoc, hcalls, hjumps, halters] at hrest

end Ledger.Holds

/-- The landmarks of all chapters. -/
def Chapter.allMarks (chs : List Chapter) : Landmarks := chs.flatMap (·.marks)

/-- A call is made from a block of a chapter that is not its last. -/
theorem Laid.exists_of_mem_calls {o : Options} {chs : List Chapter} (h : Laid o chs) {b : ℕ}
    {call : Call} (hb : (b, call) ∈ (Chapter.allMarks chs).calls) :
    ∃ c ∈ chs, c.Has b ∧ b < c.stop := by
  obtain ⟨m, hm, hcall⟩ := Landmarks.mem_calls.1 hb
  obtain ⟨c, hc, hm⟩ := List.mem_flatMap.1 hm
  exact ⟨c, hc, (h.drawn c hc).has_of_mem_blocks
    (Landmarks.mem_blocks.2 ⟨m, hm, Landmark.isLast_of_call? hcall⟩)⟩

/-- The landmarks of all chapters come one after another. -/
theorem Laid.pairwise_allMarks {o : Options} {chs : List Chapter} (h : Laid o chs) :
    (Chapter.allMarks chs).blocks.Pairwise (· < ·) := by
  have hblocks : (Chapter.allMarks chs).blocks = chs.flatMap fun c => c.marks.blocks := by
    simp [Chapter.allMarks, Landmarks.blocks, List.filter_flatMap, List.map_flatMap]
  have hhas : ∀ c ∈ chs, ∀ b ∈ c.marks.blocks, c.Has b := fun c hc b hb =>
    ((h.drawn c hc).has_of_mem_blocks hb).1
  rw [hblocks, List.pairwise_flatMap]
  refine ⟨fun c hc => (h.drawn c hc).placed.ascending, List.pairwise_iff_getElem.2 ?_⟩
  intro i j hi hj hij b hb b' hb'
  exact (hhas _ (List.getElem_mem hi) b hb).2.trans_le ((h.size_le_start hij
    (List.getElem?_eq_getElem hi) (List.getElem?_eq_getElem hj)).trans
      (hhas _ (List.getElem_mem hj) b' hb').1)

theorem Chapter.holds_ledger (chs : List Chapter) : (Chapter.ledger chs).Holds
    ((allMarks chs).filterMap Landmark.jump?) ((allMarks chs).filterMap (·.2.alter?))
    (allMarks chs).calls := by
  suffices h : ∀ (l : Ledger) jumps alters calls, l.Holds jumps alters calls →
      (chs.foldl (fun l c => c.marks.foldl (Ledger.post c.sentence) l) l).Holds
        (jumps ++ (allMarks chs).filterMap Landmark.jump?)
        (alters ++ (allMarks chs).filterMap (·.2.alter?)) (calls ++ (allMarks chs).calls) by
    simpa [ledger] using h ({}, #[]) [] [] [] ⟨rfl, rfl, rfl, rfl⟩
  induction chs with
  | nil => intro l jumps alters calls h; simpa [allMarks, Landmarks.calls] using h
  | cons c rest ih =>
    intro l jumps alters calls h
    have hrest := ih _ _ _ _ (h.foldl_post c.sentence c.marks)
    have hall : allMarks (c :: rest) = c.marks ++ allMarks rest := rfl
    rw [hall, List.filterMap_append, List.filterMap_append, Landmarks.calls,
      List.filterMap_append, ← List.append_assoc, ← List.append_assoc, ← List.append_assoc]
    exact hrest

/-- A NEXT SENTENCE waits in its sentence. -/
theorem Ledger.mem_nextSentences_foldl {l : Ledger} {sentence : Option SentenceId} {L : Landmarks}
    {w : PendingNextSentence} : w ∈ (L.foldl (Ledger.post sentence) l).1.nextSentences ↔
      w ∈ l.1.nextSentences ∨ (w.block, .nextSentence) ∈ L ∧ sentence = some w.sentence := by
  induction L generalizing l with
  | nil => simp
  | cons e rest ih =>
    rw [List.foldl_cons, ih]
    obtain ⟨block, m⟩ := e
    obtain ⟨wblock, wsentence⟩ := w
    cases m with
    | nextSentence =>
      cases sentence with
      | none => simp [Ledger.post]
      | some j =>
        simp only [Ledger.post, List.mem_append, List.mem_cons,
          PendingNextSentence.mk.injEq, Prod.mk.injEq, and_true, Option.some.injEq]
        grind
    | jump node span jump => simp [Ledger.post]
    | call node span range => simp [Ledger.post]
    | alter span clauses => simp [Ledger.post]

theorem Chapter.mem_nextSentences_ledger {chs : List Chapter} {w : PendingNextSentence} :
    w ∈ (Chapter.ledger chs).1.nextSentences ↔
      ∃ c ∈ chs, (w.block, .nextSentence) ∈ c.marks ∧ c.sentence = some w.sentence := by
  suffices h : ∀ l : Ledger,
      w ∈ (chs.foldl (fun l c => c.marks.foldl (Ledger.post c.sentence) l) l).1.nextSentences ↔
        w ∈ l.1.nextSentences ∨
          ∃ c ∈ chs, (w.block, .nextSentence) ∈ c.marks ∧ c.sentence = some w.sentence by
    simpa [ledger] using h ({}, #[])
  induction chs with
  | nil => simp
  | cons c rest ih =>
    intro l
    rw [List.foldl_cons, ih, Ledger.mem_nextSentences_foldl]
    simp [or_assoc]

/-! ### The landmarks of the source -/

/-- What is replayed of a passage. -/
def Passage.events (q : Passage) : List Notification := ((Script.statements q.text).run q.id).1

theorem Passage.events_eq_nil {q : Passage} (hq : q.text = []) : q.events = [] := by
  rw [events, hq, Script.statements]
  rfl

namespace Plan

/-- The landmarks of all that has been read. -/
def landmarks (p : Plan) : List Landmark :=
  (p.passages.flatMap Passage.events).filterMap (·.landmark?)

theorem landmarks_eq (p : Plan) : p.landmarks = p.texts.flatMap fun t =>
    (((Script.statements t.2).run t.1).1).filterMap (·.landmark?) := by
  rw [← p.flatMap_texts, landmarks, List.filterMap_flatMap]
  · rfl
  · intro id
    rw [Script.statements]
    rfl

end Plan

/-- The landmarks of an item are those of its statements. -/
theorem Item.landmarks_eq (item : Item) : item.events.filterMap (·.landmark?) =
    item.texts.flatMap fun t => (((Script.statements t.2).run t.1).1).filterMap (·.landmark?) := by
  cases item with
  | enter heading id => cases heading <;> rfl
  | leave heading id => cases heading <;> rfl
  | sentence id text =>
    have hevents : (Item.sentence id text).events =
        ((Script.statements text).run id).1 ++ [.sentenceEnd] := rfl
    rw [hevents, Item.texts]
    cases text with
    | nil => rw [Script.statements]; rfl
    | cons st rest => simp [Notification.landmark?]

/-- The landmarks of a division are those of its passages. -/
theorem DivisionText.landmarks_plan (d : DivisionText) (program : Option String) (id : NodeId) :
    (d.plan program (id + 1)).landmarks =
      ((Script.division d).run id).1.filterMap (·.landmark?) := by
  have hitems : ((d.items.run (id + 1)).1.flatMap Item.events).filterMap (·.landmark?) =
      (d.plan program (id + 1)).landmarks := by
    rw [Plan.landmarks_eq, texts_plan, List.flatMap_assoc, List.filterMap_flatMap]
    exact List.flatMap_congr fun item _ => item.landmarks_eq
  rw [run_division, ← hitems]
  simp [Notification.landmark?, Node.landmark?]

namespace ProgramUnit

/-- The landmarks of a program, in the order of the source. -/
def landmarks (u : ProgramUnit) : List Landmark := u.events.filterMap (·.landmark?)

variable {o : Options} {u : ProgramUnit} {flow : ProgramFlow}

/-- A program without a division comes to nothing. -/
theorem Yields.of_none (h : u.Yields o flow) (hd : u.division = none) :
    flow.graph = {} ∧ flow.procedures = { program := u.program } ∧ flow.problems = [] := by
  obtain ⟨s, hplay, hgraph, hprocedures, hproblems⟩ := h.built
  rw [events, hd] at hplay
  obtain ⟨-, rfl⟩ := Prod.mk.inj (Except.ok.inj hplay)
  exact ⟨hgraph, hprocedures, hproblems⟩

/-- A division is drawn by its plan, and then resolved. -/
theorem Yields.exists_draft (h : u.Yields o flow) {d : DivisionText} (hd : u.division = some d) :
    ∃ s chs s', Draft o s (d.plan u.program (u.id + 1)) chs ∧
      (d.plan u.program (u.id + 1)).landmarks = u.landmarks ∧
      Build.resolvePending o s = .ok ((), s') ∧ flow.graph = s'.graph ∧
      flow.procedures = s'.procedures ∧ flow.problems = s'.problems := by
  obtain ⟨t, hplay, hgraph, hprocedures, hproblems⟩ := h.built
  have hevents : u.events = ((Script.division d).run u.id).1 := by rw [events, hd]
  obtain ⟨s, chs, s', hdraft, hrun, hplay'⟩ := d.exists_play_division o u.program u.id
  rw [hevents, hplay'] at hplay
  obtain ⟨-, rfl⟩ := Prod.mk.inj (Except.ok.inj hplay)
  refine ⟨s, chs, s', hdraft, ?_, hrun, hgraph, hprocedures, hproblems⟩
  rw [DivisionText.landmarks_plan, landmarks, hevents]

end ProgramUnit

namespace Draft

variable {o : Options} {s : Scope} {p : Plan} {chs : List Chapter}

/-- The landmarks of the chapters are those of the plan. -/
theorem landmarks (h : Draft o s p chs) : (Chapter.allMarks chs).map (·.2) = p.landmarks := by
  rw [Plan.landmarks, ← h.passages, Chapter.allMarks, List.map_flatMap, List.flatMap_map,
    List.filterMap_flatMap]
  exact List.flatMap_congr fun c hc => (h.drawn c hc).kinds

theorem holds (h : Draft o s p chs) : s.ledger.Holds
    ((Chapter.allMarks chs).filterMap Landmark.jump?)
    ((Chapter.allMarks chs).filterMap (·.2.alter?)) (Chapter.allMarks chs).calls :=
  h.ledger ▸ Chapter.holds_ledger chs

theorem alters (h : Draft o s p chs) :
    s.pending.alters = p.landmarks.filterMap Landmark.alter? := by
  rw [← h.landmarks, List.filterMap_map]
  exact h.holds.alters

theorem calls (h : Draft o s p chs) :
    (Chapter.allMarks chs).calls.map (·.2) = p.landmarks.filterMap Landmark.call? := by
  rw [← h.landmarks, Landmarks.map_calls]

theorem mem_jumps (h : Draft o s p chs) {w : PendingJump} : w ∈ s.pending.jumps ↔
    ∃ c ∈ chs, (w.block, .jump w.node w.span w.jump) ∈ c.marks := by
  have hjumps : s.pending.jumps = (Chapter.allMarks chs).filterMap Landmark.jump? := h.holds.jumps
  obtain ⟨node, span, j, block⟩ := w
  rw [hjumps, List.mem_filterMap]
  constructor
  · rintro ⟨⟨b, m⟩, hmem, hm⟩
    obtain ⟨c, hc, hmem⟩ := List.mem_flatMap.1 hmem
    cases m with
    | jump node' span' j' =>
      simp only [Landmark.jump?, Option.some.injEq, PendingJump.mk.injEq] at hm
      obtain ⟨rfl, rfl, rfl, rfl⟩ := hm
      exact ⟨c, hc, hmem⟩
    | nextSentence => simp [Landmark.jump?] at hm
    | call node span range => simp [Landmark.jump?] at hm
    | alter span clauses => simp [Landmark.jump?] at hm
  · rintro ⟨c, hc, hmem⟩
    exact ⟨_, List.mem_flatMap.2 ⟨c, hc, hmem⟩, rfl⟩

theorem mem_nextSentences (h : Draft o s p chs) {w : PendingNextSentence} :
    w ∈ s.pending.nextSentences ↔
      ∃ c ∈ chs, (w.block, .nextSentence) ∈ c.marks ∧ c.sentence = some w.sentence := by
  rw [← Chapter.mem_nextSentences_ledger, ← h.ledger]
  rfl

end Draft

end CobolFlow
