import CobolFlow.Proofs.Continuation

/-!
# The edges read backwards

The table of predecessors is filled edge by edge, block after block. A block may lead to another
through several slots, and a slot may be an edge of several blocks; a row lists each block once all
the same, since a block is looked for in the row before it is put there.

What the table lists, that it lists nothing twice, and that its rows are in order are one invariant
of both loops: while the edges of a block are read, its row entries come from the block itself or
from earlier ones, so a new entry belongs behind all others of its row.

## Main definitions

* `Graph.Tabulates` — a table lists a relation backwards, in order

## Main results

* `Graph.predecessors_exact` — the table of predecessors is the inverse of the successors
-/

namespace CobolFlow

namespace Graph

variable {g : Graph} {table : Array (List BlockId)} {E : BlockId → BlockId → Prop} {p : BlockId}

/-- The rows of a table list, in increasing order, the blocks that a relation leads from. -/
structure Tabulates (g : Graph) (table : Array (List BlockId)) (E : BlockId → BlockId → Prop) :
    Prop where
  size : table.size = g.size
  mem_iff : ∀ {b : BlockId} {row : List BlockId}, table[b]? = some row → ∀ q, q ∈ row ↔ E q b
  ascending : ∀ {b : BlockId} {row : List BlockId}, table[b]? = some row → row.Pairwise (· < ·)

namespace Tabulates

theorem congr {E' : BlockId → BlockId → Prop} (h : g.Tabulates table E)
    (hE : ∀ q b, E q b ↔ E' q b) : g.Tabulates table E' :=
  { h with mem_iff := fun hrow q => (h.mem_iff hrow q).trans (hE q _) }

/-- No block leads anywhere yet. -/
theorem empty (g : Graph) : g.Tabulates (.replicate g.size []) fun _ _ => False where
  size := Array.size_replicate
  mem_iff {b row} hrow q := by
    obtain ⟨hb, rfl⟩ := Array.getElem?_eq_some_iff.1 hrow
    simp
  ascending {b row} hrow := by
    obtain ⟨hb, rfl⟩ := Array.getElem?_eq_some_iff.1 hrow
    simp

end Tabulates

/-- Puts a block into the row of one that it leads to. -/
def notePredecessor (p : BlockId) (table : Array (List BlockId)) (next : BlockId) :
    Except Fault (Array (List BlockId)) :=
  match table[next]? with
  | some known =>
    if known.contains p then .ok table else .ok (table.setIfInBounds next (known ++ [p]))
  | none => .error (.missingBlock next)

theorem predecessors_eq (g : Graph) : g.predecessors = g.blocks.foldlM (fun table block => do
    (← g.successors block.id).foldlM (notePredecessor block.id) table)
      (.replicate g.size []) := rfl

/-- An edge is noted of a block that no later one has been noted before. -/
theorem Tabulates.exists_note (h : g.Tabulates table E) {c : BlockId} (hc : c < g.size)
    (hlast : ∀ q, E q c → q ≤ p) : ∃ table', notePredecessor p table c = .ok table' ∧
      g.Tabulates table' fun q b => E q b ∨ q = p ∧ b = c := by
  have hc' : c < table.size := h.size.symm ▸ hc
  have hrow : table[c]? = some table[c] := Array.getElem?_eq_getElem hc'
  rw [notePredecessor, hrow]
  by_cases hp : p ∈ table[c]
  · -- the block is in the row, as another of its slots leads there
    refine ⟨table, if_pos (List.contains_iff_mem.2 hp), h.congr fun q b => ?_⟩
    refine ⟨.inl, ?_⟩
    rintro (hq | ⟨rfl, rfl⟩)
    · exact hq
    · exact (h.mem_iff hrow _).1 hp
  · refine ⟨_, if_neg fun hmem => hp (List.contains_iff_mem.1 hmem),
      (Array.size_setIfInBounds ..).trans h.size, fun {b row} hrow' q => ?_,
      fun {b row} hrow' => ?_⟩
    · rw [Array.getElem?_setIfInBounds] at hrow'
      split at hrow'
      · next heq =>
        subst heq
        obtain rfl := Option.some.inj hrow'
        rw [List.mem_append, h.mem_iff hrow, List.mem_singleton]
        simp
      · next hne =>
        rw [h.mem_iff hrow']
        simp [Ne.symm hne]
    · rw [Array.getElem?_setIfInBounds] at hrow'
      split at hrow'
      · obtain rfl := Option.some.inj hrow'
        rw [List.pairwise_append]
        refine ⟨h.ascending hrow, List.pairwise_singleton .., fun q hq r hr => ?_⟩
        obtain rfl := List.mem_singleton.1 hr
        exact (hlast q ((h.mem_iff hrow q).1 hq)).lt_of_ne fun heq => hp (heq ▸ hq)
      · exact h.ascending hrow'

/-- The edges of one block, behind which no other has been looked at. -/
theorem Tabulates.exists_noteAll (h : g.Tabulates table E) {next : List BlockId}
    (hnext : ∀ c ∈ next, c < g.size) (hlast : ∀ q b, E q b → q ≤ p) :
    ∃ table', next.foldlM (notePredecessor p) table = .ok table' ∧
      g.Tabulates table' fun q b => E q b ∨ q = p ∧ b ∈ next := by
  induction next generalizing table E with
  | nil => exact ⟨table, rfl, h.congr fun q b => by simp⟩
  | cons c next ih =>
    obtain ⟨table₁, hnote, h₁⟩ := h.exists_note (hnext c (by simp)) fun q => hlast q c
    obtain ⟨table', hrest, h'⟩ := ih h₁ (fun d hd => hnext d (by simp [hd])) fun q b hq =>
      hq.elim (hlast q b) fun hq => hq.1.le
    refine ⟨table', by rw [List.foldlM_cons, hnote, ok_bind, hrest], h'.congr fun q b => ?_⟩
    simp only [List.mem_cons]
    tauto

/-- The edges of the first blocks. -/
theorem Checked.exists_tabulates (hg : g.Checked) {rest : List Block} {n : ℕ}
    (hrest : g.blocks.toList.drop n = rest) (h : g.Tabulates table fun q b => q < n ∧ g.Leads q b) :
    ∃ table', rest.foldlM (fun table block => do
        (← g.successors block.id).foldlM (notePredecessor block.id) table) table = .ok table' ∧
      g.Tabulates table' g.Leads := by
  induction rest generalizing table n with
  | nil =>
    have hn : g.size ≤ n := List.drop_eq_nil_iff.1 hrest
    refine ⟨table, rfl, h.congr fun q b => and_iff_right_of_imp fun hq => ?_⟩
    obtain ⟨block, -, hblock, -⟩ := hq
    exact (lt_size_of_getElem? hblock).trans_le hn
  | cons block rest ih =>
    have hblock : g.blocks[n]? = some block := by
      have hhead := congrArg List.head? hrest
      rwa [List.head?_drop, Array.getElem?_toList] at hhead
    obtain ⟨next, hnext, hlt⟩ := hg.exists_successors_eq_ok (lt_size_of_getElem? hblock)
    obtain ⟨table₁, hnote, h₁⟩ := h.exists_noteAll hlt fun q b hq => hq.1.le
    have hdrop : g.blocks.toList.drop (n + 1) = rest := by
      rw [← List.drop_drop, hrest, List.drop_one, List.tail_cons]
    obtain ⟨table', hrun, h'⟩ := ih hdrop <| h₁.congr fun q b => by
      rw [hg.mem_successors_iff hnext, Nat.lt_succ_iff_lt_or_eq]
      constructor
      · rintro (⟨hq, hqb⟩ | ⟨rfl, hqb⟩)
        · exact ⟨.inl hq, hqb⟩
        · exact ⟨.inr rfl, hqb⟩
      · rintro ⟨hq | rfl, hqb⟩
        · exact .inl ⟨hq, hqb⟩
        · exact .inr ⟨rfl, hqb⟩
    refine ⟨table', ?_, h'⟩
    rw [List.foldlM_cons, hg.placed hblock, hnext, ok_bind, hnote, ok_bind, hrun]

/-- **The table of predecessors is the inverse of the successors.** A graph without defects has one.
It has a row for every block, which lists the blocks that this one is a successor of, each once
and in increasing order. -/
theorem predecessors_exact (hg : g.check = .ok ()) : ∃ table, g.predecessors = .ok table ∧
    table.size = g.size ∧ ∀ b (hb : b < table.size), table[b].Pairwise (· < ·) ∧
      ∀ p, p ∈ table[b] ↔ ∃ next, g.successors p = .ok next ∧ b ∈ next := by
  have hg := check_eq_ok_iff.1 hg
  obtain ⟨table, hrun, h⟩ := hg.exists_tabulates (n := 0) List.drop_zero <|
    (Tabulates.empty g).congr fun q b => by simp
  rw [Array.foldlM_toList, ← predecessors_eq] at hrun
  refine ⟨table, hrun, h.size, fun b hb => ?_⟩
  have hrow := Array.getElem?_eq_getElem hb
  refine ⟨h.ascending hrow, fun p => ?_⟩
  rw [h.mem_iff hrow]
  constructor
  · intro hp
    obtain ⟨block, -, hblock, -⟩ := id hp
    obtain ⟨next, hnext, -⟩ := hg.exists_successors_eq_ok (lt_size_of_getElem? hblock)
    exact ⟨next, hnext, (hg.mem_successors_iff hnext b).2 hp⟩
  · rintro ⟨next, hnext, hb⟩
    exact (hg.mem_successors_iff hnext b).1 hb

/-- Two blocks share a slot, one leads to the same block through two slots, and one to itself. -/
def sharedSlots : Graph where
  blocks := #[{ id := 0, successors := [0, 1, 2] }, { id := 1, successors := [0] },
    { id := 2, successors := [3, 1] }]
  slots := #[2, 2, 1, 2]
  roots := [0]

theorem predecessors_exact_sharedSlots : sharedSlots.check = .ok () ∧
    ∃ table, sharedSlots.predecessors = .ok table ∧ table.size = sharedSlots.size ∧
      ∀ b (hb : b < table.size), table[b].Pairwise (· < ·) ∧
        ∀ p, p ∈ table[b] ↔ ∃ next, sharedSlots.successors p = .ok next ∧ b ∈ next :=
  ⟨by rfl, predecessors_exact (by rfl)⟩

example : sharedSlots.predecessors = .ok #[[], [0], [0, 1, 2]] := by rfl

end Graph

end CobolFlow
