import CobolFlow.Proofs.Division.Outline
import CobolFlow.Proofs.Faultless.Replay

/-!
# From the first block to the last

A division begins in a sentence of the implicit section, and its items are then read one by one.
DECLARATIVES that contain no section are not there at all, so every item may come where it does.
What is left open at the end falls into the block that ends the graph.

## Main definitions

* `Scope.started` — a program in whose division nothing has been read
* `Draft` — a division whose blocks have all been made

## Main results

* `DivisionText.exists_play_items`, `DivisionText.exists_play_division` — a division is drawn by its
  plan, and then resolved
-/

namespace CobolFlow

open Scope

namespace Scope

/-- The scope of a program in whose division nothing has been read. -/
def started (program : Option String) (id : NodeId) : Scope where
  graph :=
    { blocks := #[{ id := 0, flags := { start := true } }]
      roots := [0], owners := [(id, 0)]
      nodes := [(id, { span := .unknown, text := none, callee := none })], division := some id }
  procedures :=
    { program
      procedures := #[{ id := 0, name := rootSectionName, kind := .sectionProcedure
                        parts := [.sentence 0] }]
      sentences := #[{ id := 0, owner := some 0, blocks := [0] }] }
  inDivision := true
  currentBlock := some 0
  currentSentence := some 0
  currentSection := some 0
  enclosing := [.procedureDivision]

end Scope

/-- A division begins with an open sentence in the block that starts the graph. -/
theorem Build.take_division (o : Options) (program : Option String) (id : NodeId) :
    take o (.enter { id, kind := .procedureDivision }) { procedures := { program } } =
      .ok ((), started program id) := rfl

theorem Plan.start_eq (program : Option String) : Plan.start program =
    { catalog :=
        { program
          procedures := #[{ id := 0, name := rootSectionName, kind := .sectionProcedure
                            parts := [.sentence 0] }]
          sentences := #[{ id := 0, owner := some 0 }] }
      passages := [{ sentence := some 0, id := 0, text := [], entered := false, tag := none }]
      falls := [], begun := true, currentSection := some 0, currentParagraph := none
      declaratives := none, declarativeEntry := false } := rfl

namespace Outline

variable {o : Options}

theorem start (o : Options) (program : Option String) (id : NodeId) :
    Outline o (started program id) (Plan.start program)
      [.blank { sentence := some 0, id := 0, text := [], entered := false, tag := none }
        (started program id).sketch] := by
  have htake : Build.enterNode o { id, kind := .procedureDivision }
      { procedures := { program } } = .ok ((), started program id) :=
        Build.take_division o program id
  obtain ⟨hsound, -, -⟩ :=
    (Build.enterNode_faultless o _).of_eq_ok (Builder.sound_scope_empty program) htake
  rw [Plan.start_eq]
  have hchart : ∀ b, (started program id).graph.chart b =
      if b = 0 then { flags := { start := true } } else {} := fun b => by
    cases b <;> rfl
  set q : Passage := { sentence := some 0, id := 0, text := [], entered := false, tag := none }
  set Γ := (started program id).sketch
  have hopen : Γ.Open := ⟨Nat.zero_lt_one, rfl, rfl, rfl⟩
  have hdrawn : (Chapter.blank q Γ).Drawn o := .blank rfl hopen rfl rfl
  have hzero : ∀ {i : ℕ} {c : Chapter}, [Chapter.blank q Γ][i]? = some c →
      i = 0 ∧ c = .blank q Γ := fun {i c} hi => by
    cases i with
    | zero => exact ⟨rfl, (Option.some.inj hi).symm⟩
    | succ i => simp at hi
  have hhas : ∀ {b}, (Chapter.blank q Γ).Has b → b = 0 := fun hb => Nat.lt_one_iff.1 hb.2
  have hchapters : Chapters o (started program id) [.blank q Γ] [] :=
    { drawn := by simpa using hdrawn
      contiguous := fun hi => by
        obtain ⟨rfl, rfl⟩ := hzero hi
        rfl
      size := rfl
      here := by
        intro c hc
        obtain rfl : Chapter.blank q Γ = c := by simpa using hc
        rfl
      falls_lt := by simp
      chart := fun hi b hb => by
        obtain ⟨rfl, rfl⟩ := hzero hi
        obtain rfl := hhas hb
        rfl
      tag := fun c hc b hb => by
        obtain rfl := List.mem_singleton.1 hc
        obtain rfl := hhas hb
        rfl
      numbers := rfl
      sentence := fun c hc j hj => by
        obtain rfl := List.mem_singleton.1 hc
        obtain rfl := Option.mem_some.1 hj
        exact ⟨{ id := 0, owner := some 0, blocks := [0] }, rfl, rfl, by simp⟩
      roots := rfl
      begins := rfl
      honest := fun b i hi => by
        rw [hchart] at hi
        split at hi <;> exact nomatch hi
      ledger := rfl }
  exact
    { sound := hsound
      inDivision := rfl
      forks := rfl
      problems := rfl
      chapters := hchapters
      nonempty := by simp
      passages := rfl
      catalog := by simp [Procedures.erase, started]
      currentSection := rfl
      currentParagraph := rfl
      declaratives := rfl
      declaratives_lt := by simp
      declarativeEntry := rfl
      closed := nofun
      opened := fun _ => ⟨[], _, rfl, rfl, rfl, rfl, rfl, rfl, rfl⟩ }

end Outline

/-! ### The end -/

/-- Where control goes from the end of a chapter. From the last one it goes to the block that ends
the graph. -/
def Chapter.ways (chs : List Chapter) (falls : List (ℕ × ℕ)) (i : ℕ) : List ℕ :=
  onto chs falls i ++ if i + 1 = chs.length then [extent chs] else []

theorem Chapter.mem_ways_iff {chs : List Chapter} {falls : List (ℕ × ℕ)} {i x : ℕ} :
    x ∈ ways chs falls i ↔
      (∃ k c, (i, k) ∈ falls ∧ chs[k]? = some c ∧ x = c.start) ∨
        i + 1 = chs.length ∧ x = extent chs := by
  rw [ways, List.mem_append]
  refine or_congr ?_ ?_
  · simp only [onto, List.mem_filterMap, Prod.exists, ite_eq_iff, Option.map_eq_some_iff]
    constructor
    · rintro ⟨k, j, he, ⟨rfl, c', hc', rfl⟩ | ⟨-, hx⟩⟩
      · exact ⟨j, c', he, hc', rfl⟩
      · cases hx
    · rintro ⟨k, c, he, hc, rfl⟩
      exact ⟨i, k, he, .inl ⟨rfl, c, hc, rfl⟩⟩
  · split
    next hlast => simp [hlast]
    next hlast => simp [hlast]

/-- A division whose blocks have all been made, and in which no name has been looked up. -/
structure Draft (o : Options) (s : Scope) (p : Plan) (chs : List Chapter) : Prop
    extends Laid o chs where
  sound : Sound s
  problems : s.problems = []
  nonempty : chs ≠ []
  passages : chs.map (·.toPassage) = p.passages
  catalog : s.procedures.erase = p.catalog
  size : s.graph.size = Chapter.extent chs + 1
  finish : s.graph.chart (Chapter.extent chs) = { flags := { finish := true } }
  falls_lt : ∀ e ∈ p.falls, e.1 < chs.length ∧ e.2 < chs.length
  chart : ∀ {i : ℕ} {c : Chapter}, chs[i]? = some c → ∀ b, c.Has b → s.graph.chart b =
    if b = c.stop then { c.last.chart b with next := Chapter.ways chs p.falls i }
    else c.last.chart b
  tag : ∀ c ∈ chs, ∀ b, c.Has b → (s.graph.chart b).tag = c.tag
  numbers : chs.filterMap (·.sentence) = List.range s.procedures.sentences.size
  sentence : ∀ c ∈ chs, ∀ j ∈ c.sentence, ∃ t, s.procedures.sentences[j]? = some t ∧
    t.blocks = c.blocks ∧ ∀ k ∈ t.entry, s.graph.slots[k]? = some c.start
  roots : s.graph.roots = 0 :: (chs.filter (·.entered)).map (·.start)
  begins : (s.graph.chart 0).flags.start = true
  honest : s.graph.Honest
  ledger : s.ledger = Chapter.ledger chs

theorem Draft.lt_size {o : Options} {s : Scope} {p : Plan} {chs : List Chapter}
    (h : Draft o s p chs) {b : ℕ} (hb : b < Chapter.extent chs) : b < s.graph.size :=
  h.size ▸ Nat.lt_succ_of_lt hb

/-- The scope with the block that ends the graph. -/
def Scope.ended (s : Scope) (last : BlockId) : Scope :=
  { s with
    currentSentence := none
    graph := (s.graph.grow { finish := true } none).withEdge last s.graph.size
    currentBlock := some s.graph.size }

theorem Build.finishBlocks_eq_ok {s : Scope} {last : BlockId} (hs : s.currentBlock = some last)
    (hlast : last < s.graph.size) : finishBlocks s = .ok ((), s.ended last) := by
  have hmark : Graph.markBlock s.graph.size { finish := true }
      { s.graph with blocks := s.graph.blocks.push { id := s.graph.blocks.size } } =
        .ok ((), s.graph.grow { finish := true } none) := Graph.modifyBlock_addBlock _ rfl
  set g := s.graph.grow { finish := true } none with hg
  have hedge :
      Graph.addEdge last s.graph.size g = .ok (g.slots.size, g.withEdge last s.graph.size) :=
    Graph.addEdge_eq_ok (by rw [hg, Graph.size_grow]; exact Nat.lt_succ_of_lt hlast)
  rw [finishBlocks, run_bind (a := ⟨⟩) (t := { s with currentSentence := none }) rfl]
  refine (run_bind (a := s.graph.size) (t := { s with currentSentence := none, graph := _ }) rfl
    _).trans ?_
  refine (run_bind (editGraph_eq_ok (s := { s with currentSentence := none, graph := _ }) hmark)
    _).trans ?_
  set s₁ : Scope := { s with currentSentence := none, graph := g }
  refine (run_bind (a := s₁) (t := s₁) rfl _).trans ?_
  rw [show s₁.currentBlock = some last from hs]
  refine (run_bind (editGraph_eq_ok (s := s₁) hedge) _).trans ?_
  rw [Scope.ended, ← hg]
  rfl

theorem Outline.draft {o : Options} {s : Scope} {p : Plan} {chs : List Chapter}
    (h : Outline o s p chs) : ∃ s', Build.finishBlocks s = .ok ((), s') ∧ Draft o s' p chs := by
  obtain ⟨pre, c, rfl, hcurrent, -⟩ := h.last
  have hn : (pre ++ [c])[pre.length]? = some c := List.getElem?_concat_length
  have hc : c ∈ pre ++ [c] := by simp
  have hstop := (h.chapters.drawn c hc).has_stop
  have hlast : c.stop < s.graph.size := h.chapters.has_lt hn hstop
  have hrun := Build.finishBlocks_eq_ok hcurrent hlast
  refine ⟨_, hrun, ?_⟩
  obtain ⟨hsound, -, -⟩ := Build.finishBlocks_faultless.of_eq_ok h.sound hrun
  have hchart : ∀ b, (s.ended c.stop).graph.chart b =
      if b = c.stop then { s.graph.chart b with next := (s.graph.chart b).next ++ [s.graph.size] }
      else if b = s.graph.size then { flags := { finish := true } } else s.graph.chart b :=
    Graph.chart_grow_withEdge h.sound.graph _ _ hlast
  have hold : ∀ {i : ℕ} {d : Chapter}, (pre ++ [c])[i]? = some d → ∀ b, d.Has b →
      (s.ended c.stop).graph.chart b =
        if b = c.stop then { s.graph.chart b with next := (s.graph.chart b).next ++ [s.graph.size] }
        else s.graph.chart b := fun hi b hb => by
    rw [hchart b, if_neg (h.chapters.has_lt hi hb).ne]
  have hslots : ∀ {k : SlotId} {b : BlockId}, s.graph.slots[k]? = some b →
      (s.ended c.stop).graph.slots[k]? = some b := by
    intro k b hk
    change (s.graph.slots.push _)[k]? = some b
    rw [Array.getElem?_push, if_neg (Array.getElem?_eq_some_iff.1 hk).1.ne, hk]
  exact
    { drawn := h.chapters.drawn
      contiguous := h.chapters.contiguous
      sound := hsound
      problems := h.problems
      nonempty := h.nonempty
      passages := h.passages
      catalog := h.catalog
      size := by
        rw [← h.chapters.size]
        exact (Graph.size_withEdge).trans (Graph.size_grow _ _)
      finish := by
        rw [← h.chapters.size, hchart, if_neg hlast.ne', if_pos rfl]
      falls_lt := h.chapters.falls_lt
      chart := fun {i d} hi b hb => by
        have hlength : (pre ++ [c]).length = pre.length + 1 := by simp
        rw [hold hi b hb, h.chapters.chart hi b hb, Chapter.ways, ← h.chapters.size, hlength]
        by_cases hb' : b = c.stop
        · obtain rfl := h.chapters.eq_of_has hi hn hb (hb' ▸ hstop)
          obtain rfl : d = c := Option.some.inj (hi.symm.trans hn)
          rw [if_pos hb', if_pos hb', if_pos hb', if_pos rfl]
        · rw [if_neg hb']
          by_cases hd : b = d.stop
          · have hlt : i + 1 ≠ pre.length + 1 := fun heq => hb' <| by
              obtain rfl := Nat.succ.inj heq
              rw [hd, Option.some.inj (hi.symm.trans hn)]
            rw [if_pos hd, if_pos hd, if_neg hlt, List.append_nil]
          · rw [if_neg hd, if_neg hd]
      tag := fun d hd b hb => by
        obtain ⟨i, hi⟩ := List.getElem?_of_mem hd
        rw [hold hi b hb, ← h.chapters.tag d hd b hb]
        split <;> rfl
      numbers := h.chapters.numbers
      sentence := fun d hd j hj => by
        obtain ⟨t, ht, hblocks, hentry⟩ := h.chapters.sentence d hd j hj
        exact ⟨t, ht, hblocks, fun k hk => hslots (hentry k hk)⟩
      roots := h.chapters.roots
      begins := by
        rw [hchart]
        split
        · exact h.chapters.begins
        · rw [if_neg (Nat.zero_lt_of_lt hlast).ne]
          exact h.chapters.begins
      honest := fun b i hi => by
        refine h.chapters.honest b i ?_
        rw [← hi, hchart b]
        split
        · rfl
        · split
          · next hb => rw [Graph.chart_of_size_le hb.ge]
          · rfl
      ledger := h.chapters.ledger }

/-- When the items of a division have been read, the block is added that ends the graph, and all
that waits for the end of the division is resolved. -/
theorem Outline.exists_resolved {o : Options} {d : DivisionText} {program : Option String}
    {id : NodeId} {s₁ : Scope} {chs : List Chapter}
    (h : Outline o s₁ (d.plan program (id + 1)) chs)
    (hplay : Build.play o ((d.items.run (id + 1)).1.flatMap Item.events)
      (Scope.started program id) = .ok ((), s₁)) :
    ∃ s s', Build.finishBlocks { s₁ with enclosing := s₁.enclosing.tail } = .ok ((), s) ∧
      Draft o s (d.plan program (id + 1)) chs ∧ Build.resolvePending o s = .ok ((), s') ∧
      Build.play o ((Script.division d).run id).1 { procedures := { program } } =
        .ok ((), { s' with inDivision := false }) := by
  obtain ⟨s₂, hfinish, hdraft⟩ := (h.withEnclosing s₁.enclosing.tail).draft
  obtain ⟨_, s₃, hresolve, -⟩ := Build.resolvePending_faultless o hdraft.sound
  refine ⟨s₂, s₃, hfinish, hdraft, hresolve, ?_⟩
  have hleave : Build.take o (.leave { id, kind := .procedureDivision }) s₁ =
      .ok ((), { s₃ with inDivision := false }) := by
    refine (run_bind (a := ⟨⟩) (t := { s₁ with enclosing := s₁.enclosing.tail }) rfl _).trans ?_
    refine (run_bind (a := { s₁ with enclosing := s₁.enclosing.tail }) rfl _).trans ?_
    rw [if_pos h.inDivision]
    refine (run_bind hfinish _).trans ?_
    exact (run_bind hresolve _).trans rfl
  rw [d.run_division, List.cons_append, Build.play_cons (Build.take_division o program id),
    Build.play_append hplay, Build.play_cons hleave]
  rfl

namespace DivisionText

/-- The items of a division are read, the block is added that ends the graph, and all that waits for
the end of the division is resolved. -/
theorem exists_play_items (d : DivisionText) (o : Options) (program : Option String) (id : NodeId) :
    ∃ s₁ s chs s', Build.play o ((d.items.run (id + 1)).1.flatMap Item.events)
        (Scope.started program id) = .ok ((), s₁) ∧
      Build.finishBlocks { s₁ with enclosing := s₁.enclosing.tail } = .ok ((), s) ∧
      Draft o s (d.plan program (id + 1)) chs ∧ Build.resolvePending o s = .ok ((), s') ∧
      Build.play o ((Script.division d).run id).1 { procedures := { program } } =
        .ok ((), { s' with inDivision := false }) := by
  obtain ⟨s₁, chs, hplay, houtline, -⟩ := (Outline.start o program id).exists_play
    (d.items.run (id + 1)).1 (d.allowsAll_items program (id + 1))
  obtain ⟨s, s', h⟩ := Outline.exists_resolved houtline hplay
  exact ⟨s₁, s, chs, s', hplay, h⟩

/-- **A division** is drawn by its plan. Then all that waits for its end is resolved. -/
theorem exists_play_division (d : DivisionText) (o : Options) (program : Option String)
    (id : NodeId) : ∃ s chs s', Draft o s (d.plan program (id + 1)) chs ∧
      Build.resolvePending o s = .ok ((), s') ∧
      Build.play o ((Script.division d).run id).1 { procedures := { program } } =
        .ok ((), { s' with inDivision := false }) := by
  obtain ⟨_, s, chs, s', -, -, hdraft, hresolve, hplay⟩ := d.exists_play_items o program id
  exact ⟨s, chs, s', hdraft, hresolve, hplay⟩

end DivisionText

end CobolFlow
