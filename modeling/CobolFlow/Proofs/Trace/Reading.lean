import CobolFlow.Graph.Basic
import Mathlib.Computability.Language
import Mathlib.Order.CompletePartialOrder

/-!
# What is read along the paths of a graph

A path reads the instructions of the blocks it goes through. For this it does not matter through
which slots it goes, so a graph is looked at as a `Chart`: for each block number, the instructions,
the blocks that the edges lead to, and the marks.

The words that are read from a block form a language in the sense of `Language`, whose product is
what is read one after the other. What a block contributes is then one equation, `reading_eq`: its
own instructions, and after them what is read from the blocks it leads to. A graph is understood by
solving these equations, which is possible because a `Language` is a Kleene algebra.

## Main definitions

* `Spot`, `Chart`, `Graph.chart` — a block and a graph as a path sees them
* `Chart.Reads` — a path reads a word
* `Chart.reading`, `Chart.onward` — all words read from a block, with and without its own
-/

namespace CobolFlow

/-- A block as a path sees it, with the targets of its edges in place of their slots. -/
structure Spot where
  nodes : List Instruction := []
  /-- Where the edges lead, in edge order. -/
  next : List ℕ := []
  flags : BlockFlags := {}
  tag : Option String := none
  group : Option GroupId := none
deriving DecidableEq

/-- A graph as its paths see it. -/
abbrev Chart := ℕ → Spot

/-- A block as its paths see it. -/
def Block.spot (block : Block) (slots : Array BlockId) : Spot where
  nodes := block.instructions
  next := block.successors.filterMap (slots[·]?)
  flags := block.flags
  tag := block.tag
  group := block.group

/-- The chart of a graph; a number that is no block stands for a block without anything. -/
def Graph.chart (g : Graph) : Chart := fun b =>
  match g.blocks[b]? with
  | some block => block.spot g.slots
  | none => {}

/-- The language of a single word. -/
def just (w : List Instruction) : Language Instruction := {w}

@[simp] theorem mem_just {w v : List Instruction} : v ∈ just w ↔ v = w := Iff.rfl

@[simp] theorem just_nil : just [] = 1 := rfl

theorem just_append (v w : List Instruction) : just (v ++ w) = just v * just w := by
  ext x
  simp [Language.mem_mul, eq_comm]

theorem mem_sum_map {α : Type} {l : List α} {f : α → Language Instruction}
    {w : List Instruction} : w ∈ (l.map f).sum ↔ ∃ a ∈ l, w ∈ f a := by
  induction l with
  | nil => simp
  | cons a rest ih => simp [Language.mem_add, ih]

namespace Chart

variable {χ : Chart} {stop : Spot → Prop} {b c : ℕ} {w : List Instruction}

/-- A path from a block to one where it may stop reads a word. -/
inductive Reads (χ : Chart) (stop : Spot → Prop) : ℕ → List Instruction → Prop
  | stop {b : ℕ} (h : stop (χ b)) : Reads χ stop b (χ b).nodes
  | step {b c : ℕ} {w : List Instruction} (h : c ∈ (χ b).next) (hw : Reads χ stop c w) :
    Reads χ stop b ((χ b).nodes ++ w)

/-- A block from which no edge leads. -/
def IsSink (s : Spot) : Prop := s.next = []

/-- The words read from a block up to one that leads nowhere. -/
def reading (χ : Chart) (b : ℕ) : Language Instruction := {w | Reads χ IsSink b w}

@[simp] theorem mem_reading : w ∈ χ.reading b ↔ Reads χ IsSink b w := Iff.rfl

/-- Where paths may stop matters only at the blocks that they reach. -/
theorem Reads.mono_stop {stop' : Spot → Prop} {P : ℕ → Prop} (h : Reads χ stop b w) (hb : P b)
    (hclosed : ∀ b, P b → ∀ c ∈ (χ b).next, P c) (hstop : ∀ b, P b → stop (χ b) → stop' (χ b)) :
    Reads χ stop' b w := by
  induction h with
  | stop h => exact .stop (hstop _ hb h)
  | step hc _ ih => exact .step hc (ih (hclosed _ hb _ hc))

/-- The words read after a block: those of the blocks it leads to, or nothing if it is a sink. -/
def onward (χ : Chart) (b : ℕ) : Language Instruction :=
  if (χ b).next.isEmpty then 1 else ((χ b).next.map χ.reading).sum

theorem onward_of_next_eq_nil (h : (χ b).next = []) : χ.onward b = 1 := by
  simp [onward, h]

theorem onward_of_next_ne_nil (h : (χ b).next ≠ []) :
    χ.onward b = ((χ b).next.map χ.reading).sum := by
  simp [onward, h]

/-- **What a block contributes**: its own instructions, and then what comes after. -/
theorem reading_eq (χ : Chart) (b : ℕ) :
    χ.reading b = just (χ b).nodes * χ.onward b := by
  ext w
  rw [Language.mem_mul, mem_reading]
  simp only [mem_just, exists_eq_left]
  by_cases hnil : (χ b).next = []
  · rw [onward_of_next_eq_nil hnil]
    constructor
    · rintro (_ | ⟨h, -⟩)
      · exact ⟨[], rfl, List.append_nil _⟩
      · simp [hnil] at h
    · rintro ⟨v, hv, rfl⟩
      obtain rfl : v = [] := hv
      rw [List.append_nil]
      exact .stop hnil
  · rw [onward_of_next_ne_nil hnil]
    simp only [mem_sum_map]
    constructor
    · rintro (h | ⟨h, hw⟩)
      · exact absurd h hnil
      · exact ⟨_, ⟨_, h, hw⟩, rfl⟩
    · rintro ⟨v, ⟨c, hc, hv⟩, rfl⟩
      exact .step hc hv

/-- If all edges lead to what reads the same, this is what is read onward. -/
theorem onward_eq_of_forall {R : Language Instruction} (hne : (χ b).next ≠ [])
    (h : ∀ c ∈ (χ b).next, χ.reading c = R) : χ.onward b = R := by
  rw [onward_of_next_ne_nil hne]
  ext w
  rw [mem_sum_map]
  constructor
  · rintro ⟨c, hc, hw⟩
    exact h c hc ▸ hw
  · intro hw
    obtain ⟨c, hc⟩ := List.exists_mem_of_ne_nil _ hne
    exact ⟨c, hc, (h c hc).symm ▸ hw⟩

/-- What is still read at a block of which the first `k` instructions have been read. -/
def rest (χ : Chart) (k : ℕ) (b : ℕ) : Language Instruction :=
  just ((χ b).nodes.drop k) * χ.onward b

theorem reading_eq_rest (χ : Chart) (b : ℕ) : χ.reading b = χ.rest 0 b := reading_eq χ b

/-- Reading on over instructions that are known. -/
theorem rest_eq_just_mul_rest {u v : List Instruction} (h : u ++ v <+: (χ b).nodes) :
    χ.rest u.length b = just v * χ.rest (u ++ v).length b := by
  obtain ⟨t, ht⟩ := h
  have hlong : (χ b).nodes.drop u.length = v ++ t := by simp [← ht]
  have hshort : (χ b).nodes.drop (u ++ v).length = t := by rw [← ht, List.drop_left]
  rw [rest, rest, hlong, hshort, just_append, mul_assoc]

theorem reading_eq_just_mul_rest {u : List Instruction} (h : u <+: (χ b).nodes) :
    χ.reading b = just u * χ.rest u.length b :=
  (reading_eq_rest χ b).trans (rest_eq_just_mul_rest (u := []) h)

/-- Where all instructions have been read, what is left is what comes after. -/
theorem rest_length (χ : Chart) (b : ℕ) : χ.rest (χ b).nodes.length b = χ.onward b := by
  rw [rest, List.drop_length, just_nil, one_mul]

/-- Edges lead from the first block to the second, in any number. -/
abbrev Reaches (χ : Chart) : ℕ → ℕ → Prop :=
  Relation.ReflTransGen fun b c => c ∈ (χ b).next

/-- A path does not leave a set that no edge leaves. -/
theorem Reaches.mem {P : ℕ → Prop} {a t : ℕ} (h : χ.Reaches a t) (ha : P a)
    (hclosed : ∀ b, P b → ∀ c ∈ (χ b).next, P c) : P t := by
  induction h with
  | refl => exact ha
  | tail _ hbc ih => exact hclosed _ ih _ hbc

/-- Only the edges of a set that no edge leaves are needed for paths that begin in it. -/
theorem reaches_congr {χ' : Chart} {P : ℕ → Prop} {a t : ℕ} (ha : P a)
    (hclosed : ∀ b, P b → ∀ c ∈ (χ b).next, P c)
    (hsame : ∀ b, P b → (χ' b).next = (χ b).next) : χ'.Reaches a t ↔ χ.Reaches a t := by
  constructor
  · intro h
    have aux : P t ∧ χ.Reaches a t := by
      induction h with
      | refl => exact ⟨ha, .refl⟩
      | tail _ hbc ih =>
        rw [hsame _ ih.1] at hbc
        exact ⟨hclosed _ ih.1 _ hbc, ih.2.tail hbc⟩
    exact aux.2
  · intro h
    have aux : P t ∧ χ'.Reaches a t := by
      induction h with
      | refl => exact ⟨ha, .refl⟩
      | tail _ hbc ih => exact ⟨hclosed _ ih.1 _ hbc, ih.2.tail (by rwa [hsame _ ih.1])⟩
    exact aux.2

/-- A path can be cut at its first visit to where it ends, so only the edges of other blocks are
needed for it. -/
theorem Reaches.transfer {χ χ' : Chart} {P : ℕ → Prop} {a t : ℕ} (h : χ.Reaches a t) (ha : P a)
    (hP : ∀ b, P b → b ≠ t → ∀ c ∈ (χ b).next, P c ∧ c ∈ (χ' b).next) : χ'.Reaches a t := by
  induction h using Relation.ReflTransGen.head_induction_on with
  | refl => exact .refl
  | @head a c hac _ ih =>
    by_cases hat : a = t
    · exact hat ▸ .refl
    · obtain ⟨hc, hac'⟩ := hP a ha hat c hac
      exact .head hac' (ih hc)

end Chart

end CobolFlow
