import CobolFlow.Proofs.Calls.Results
import CobolFlow.Proofs.Catalog.Order
import CobolFlow.Proofs.Division.Regions

/-!
# The catalog and the graph agree

The blocks of a graph up to the one that ends it are made one after another, and each is listed
with the sentence that is open when it is made. So the lists of the sentences, put one behind the
other, count through these blocks. One block is left out if there are DECLARATIVES: where these are
left, no sentence is open.

## Main definitions

* `Procedures.listed` — the blocks of all sentences
* `ProgramUnit.Registers` — what is said of one program

## Main results

* `StatementTree.build_registers` — it holds of every program of every tree
-/

namespace CobolFlow

open Scope

/-- The blocks of all sentences, one sentence after another. -/
def Procedures.listed (c : Procedures) : List BlockId := c.sentences.toList.flatMap (·.blocks)

theorem Procedures.listed_eq_of_bare {c c' : Procedures} (h : c'.bare = c.bare) :
    c'.listed = c.listed := by
  have hlisted : ∀ c : Procedures, c.bare.listed = c.listed := fun c => by
    rw [listed, bare, Array.toList_map, List.flatMap_map]
    rfl
  rw [← hlisted, h, hlisted]

/-- Chapters that follow one another count through their blocks. -/
theorem Laid.flatMap_blocks {o : Options} {chs : List Chapter} (h : Laid o chs) :
    chs.flatMap Chapter.blocks = List.range (Chapter.extent chs) := by
  have htake : ∀ n ≤ chs.length, (chs.take n).flatMap Chapter.blocks =
      List.range (Chapter.extent (chs.take n)) := by
    intro n hn
    induction n with
    | zero => rfl
    | succ n ih =>
      have hc : chs[n]? = some chs[n] := List.getElem?_eq_getElem hn
      have hlt := (h.drawn _ (List.mem_of_getElem? hc)).start_lt
      have hstart := h.contiguous hc
      rw [List.take_add_one, hc, Option.toList_some, List.flatMap_append, ih (Nat.le_of_lt hn),
        Chapter.extent_append, List.flatMap_singleton, Chapter.blocks, hstart,
        List.range_eq_range', List.range_eq_range']
      rw [hstart] at hlt
      have happend := List.range'_append_1 (s := 0) (m := Chapter.extent (chs.take n))
        (n := chs[n].last.size - Chapter.extent (chs.take n))
      rw [Nat.zero_add, Nat.add_sub_cancel' hlt.le] at happend
      exact happend
  simpa using htake chs.length le_rfl

theorem filterMap_getElem?_range {α : Type} (l : List α) :
    (List.range l.length).filterMap (l[·]?) = l := by
  induction l with
  | nil => rfl
  | cons a l ih =>
    rw [List.length_cons, List.range_succ_eq_map, List.filterMap_cons, List.filterMap_map]
    exact congrArg (a :: ·) ih

/-- A chapter is listed if it is a sentence. -/
theorem Draft.listed_eq {o : Options} {s : Scope} {p : Plan} {chs : List Chapter}
    (h : Draft o s p chs) : s.procedures.listed =
      (chs.filter (·.sentence.isSome)).flatMap Chapter.blocks := by
  have hsentences : s.procedures.sentences.toList =
      (chs.filterMap (·.sentence)).filterMap (s.procedures.sentences[·]?) := by
    rw [h.numbers, ← Array.length_toList]
    simp only [← Array.getElem?_toList]
    exact (filterMap_getElem?_range _).symm
  rw [Procedures.listed, hsentences]
  have hchapter : ∀ l : List Chapter, (∀ c ∈ l, c ∈ chs) →
      ((l.filterMap (·.sentence)).filterMap (s.procedures.sentences[·]?)).flatMap (·.blocks) =
        (l.filter (·.sentence.isSome)).flatMap Chapter.blocks := by
    intro l hl
    induction l with
    | nil => rfl
    | cons c l ih =>
      have ih := ih fun c' hc' => hl c' (List.mem_cons_of_mem _ hc')
      cases hj : c.sentence with
      | none => simp only [List.filterMap_cons, List.filter_cons, hj, ih]; rfl
      | some j =>
        obtain ⟨t, ht, hblocks, -⟩ := h.sentence c (hl c List.mem_cons_self) j hj
        simp only [List.filterMap_cons, List.filter_cons, hj, ht, List.flatMap_cons, ih, hblocks,
          Option.isSome_some, if_true]
  exact hchapter chs fun c hc => hc

/-- What is said of one program: its catalog and its graph agree. -/
structure ProgramUnit.Registers (o : Options) (u : ProgramUnit) (flow : ProgramFlow) : Prop where
  /-- Every block is listed, but for the one behind the DECLARATIVES and the last. -/
  covered : ∀ d ∈ u.division, ∃ last, flow.graph.findFlagged { finish := true } = some last ∧
    ((d.declaratives = [] ∧ flow.procedures.listed = List.range last) ∨
      d.declaratives ≠ [] ∧ ∃ b < last, u.Resumes o b ∧
        flow.procedures.listed = (List.range last).erase b)
  increasing : flow.procedures.listed.Pairwise (· < ·)
  begun : ∀ {j : SentenceId} {t : Sentence}, flow.procedures.sentences[j]? = some t →
    t.blocks ≠ [] ∧ ∀ k ∈ t.entry, flow.graph.slots[k]? = t.firstBlock?
  /-- A sentence is filed once, and under its owner. -/
  filed : ∀ {j : SentenceId} {t : Sentence}, flow.procedures.sentences[j]? = some t →
    ∃ p P, t.owner = some p ∧ flow.procedures.procedures[p]? = some P ∧
      P.parts.count (.sentence j) = 1 ∧ ∀ {q : ProcedureId} {Q : Procedure},
        flow.procedures.procedures[q]? = some Q → .sentence j ∈ Q.parts → q = p
  /-- The sentences of a procedure are its own and those of its paragraphs, in order. -/
  listed : ∀ p < flow.procedures.procedures.size, ∃ l, flow.procedures.sentencesOf p = .ok l ∧
    l.Pairwise (· < ·) ∧ (∀ j, j ∈ l ↔ flow.procedures.Under p j) ∧
      flow.procedures.firstSentence p = .ok l.head?

/-- A program without a division has nothing to list. -/
theorem ProgramUnit.registers_of_none (o : Options) {u : ProgramUnit} {flow : ProgramFlow}
    (hd : u.division = none) (hprocedures : flow.procedures = { program := u.program }) :
    u.Registers o flow where
  covered := by simp [hd]
  increasing := by simp [hprocedures, Procedures.listed]
  begun := by simp [hprocedures]
  filed := by simp [hprocedures]
  listed := by simp [hprocedures]

namespace ProgramUnit.Arises

variable {o : Options} {u : ProgramUnit} {d : DivisionText} {flow : ProgramFlow}
  {s s₁ s₂ : Scope} {chs : List Chapter} (h : u.Arises o d flow s chs s₁ s₂)
include h

theorem shelved : flow.procedures.Shelved :=
  .of_erase (h.erase ▸ (d.shelved_plan u.program (u.id + 1)).shelved)

/-- A sentence has a first block, to which its slot leads. -/
theorem begun {j : SentenceId} {t : Sentence} (ht : flow.procedures.sentences[j]? = some t) :
    t.blocks ≠ [] ∧ ∀ k ∈ t.entry, flow.graph.slots[k]? = t.firstBlock? := by
  refine ⟨?_, fun k hk => ?_⟩
  · obtain ⟨t₀, ht₀⟩ : ∃ t₀, s.procedures.sentences[j]? = some t₀ := by
      have hlt := (Array.getElem?_eq_some_iff.1 ht).1
      exact ⟨_, Array.getElem?_eq_getElem (Procedures.size_eq_of_bare h.bare ▸ hlt)⟩
    obtain ⟨c, hc, hj, -⟩ := h.draft.exists_chapter ht₀
    have hfirst := h.draft.firstBlock?_eq hc hj
    rw [← Procedures.firstBlock?_eq h.bare, Procedures.firstBlock?, ht] at hfirst
    rintro hempty
    rw [Option.bind_some, Sentence.firstBlock?, hempty] at hfirst
    cases hfirst
  · rw [h.procedures_eq] at ht
    obtain ⟨b, hfirst, hslot⟩ := h.links.entered ht hk
    rw [h.slot hslot, hfirst]

/-- A sentence is filed once, and under its owner. -/
theorem filed {j : SentenceId} {t : Sentence} (ht : flow.procedures.sentences[j]? = some t) :
    ∃ p P, t.owner = some p ∧ flow.procedures.procedures[p]? = some P ∧
      P.parts.count (.sentence j) = 1 ∧ ∀ {q : ProcedureId} {Q : Procedure},
        flow.procedures.procedures[q]? = some Q → .sentence j ∈ Q.parts → q = p := by
  have hshelved := h.shelved
  obtain ⟨p, P, howner, hP, hmem⟩ := hshelved.sentence ht
  refine ⟨p, P, howner, hP, List.count_eq_one_of_mem (hshelved.nodup hP) hmem,
    fun {q Q} hQ hmem' => ?_⟩
  obtain ⟨t', ht', howner'⟩ := hshelved.owns hQ _ hmem'
  obtain rfl := Option.some.inj (ht.symm.trans ht')
  exact Option.some.inj (howner'.symm.trans howner)

/-- The blocks of all sentences are those of the chapters that are sentences. -/
theorem listed_eq : flow.procedures.listed =
    (chs.filter (·.sentence.isSome)).flatMap Chapter.blocks := by
  rw [Procedures.listed_eq_of_bare h.bare, h.draft.listed_eq]

/-- The chapter behind the DECLARATIVES is a single block, and is left out. -/
theorem listed_eq_erase {c : Procedures} {first resumed : Chapter} {inside behind : List Chapter}
    (hregions : Chapter.Regions c chs first inside resumed behind) :
    resumed.start < Chapter.extent chs ∧
      flow.procedures.listed = (List.range (Chapter.extent chs)).erase resumed.start := by
  obtain ⟨pre, hpre⟩ : ∃ pre, pre = first :: inside := ⟨_, rfl⟩
  have hchs : chs = pre ++ resumed :: behind := hpre ▸ hregions.eq
  have hsome : ∀ c ∈ pre, c.sentence.isSome := hpre ▸ List.forall_mem_cons.2
    ⟨hregions.first.isSome, fun c hc => (hregions.inside c hc).isSome⟩
  have hdrawn := h.draft.drawn resumed (by simp [hchs])
  have hblocks : resumed.blocks = [resumed.start] := by
    rw [Chapter.blocks, hdrawn.idle hregions.resumed, hdrawn.single, Nat.add_sub_cancel_left]
    rfl
  have hrange : List.range (Chapter.extent chs) =
      pre.flatMap Chapter.blocks ++ resumed.start :: behind.flatMap Chapter.blocks := by
    rw [← h.draft.toLaid.flatMap_blocks, hchs, List.flatMap_append, List.flatMap_cons, hblocks]
    rfl
  have hfilter : chs.filter (·.sentence.isSome) = pre ++ behind := by
    rw [hchs, List.filter_append, List.filter_cons_of_neg (by simp [hregions.resumed]),
      List.filter_eq_self.2 hsome, List.filter_eq_self.2 fun c hc => (hregions.behind c hc).isSome]
  have hnodup := hrange ▸ List.nodup_range
  have hnot : resumed.start ∉ pre.flatMap Chapter.blocks := fun hmem =>
    (List.nodup_append.1 hnodup).2.2 _ hmem _ List.mem_cons_self rfl
  refine ⟨List.mem_range.1 (hrange ▸ by simp), ?_⟩
  rw [h.listed_eq, hfilter, hrange, List.erase_append_right _ hnot, List.erase_cons_head,
    List.flatMap_append]

theorem registers {c : Procedures}
    (hlisted : (d.declaratives = [] ∧ ∀ k ∈ chs, c.Stands false k.sentence) ∨
      d.declaratives ≠ [] ∧ ∃ first inside resumed behind,
        Chapter.Regions c chs first inside resumed behind ∧ u.Resumes o resumed.start)
    (hd : u.division = some d) : u.Registers o flow := by
  have hcovered : (d.declaratives = [] ∧
        flow.procedures.listed = List.range (Chapter.extent chs)) ∨
      d.declaratives ≠ [] ∧ ∃ b < Chapter.extent chs, u.Resumes o b ∧
        flow.procedures.listed = (List.range (Chapter.extent chs)).erase b := by
    refine hlisted.imp (And.imp_right fun hstands => ?_) (And.imp_right ?_)
    · rw [h.listed_eq, List.filter_eq_self.2 fun k hk => (hstands k hk).isSome,
        h.draft.toLaid.flatMap_blocks]
    · rintro ⟨first, inside, resumed, behind, hregions, hresumes⟩
      obtain ⟨hlt, herase⟩ := h.listed_eq_erase hregions
      exact ⟨resumed.start, hlt, hresumes, herase⟩
  have hsublist : flow.procedures.listed.Sublist (List.range (Chapter.extent chs)) := by
    obtain ⟨-, heq⟩ | ⟨-, b, -, -, heq⟩ := hcovered
    · exact heq ▸ .refl _
    · exact heq ▸ List.erase_sublist
  exact
    { covered := fun d' hd' => by
        obtain rfl : d = d' := Option.some.inj (hd.symm.trans hd')
        exact ⟨_, h.findFlagged_finish, hcovered⟩
      increasing := List.pairwise_lt_range.sublist hsublist
      begun := h.begun
      filed := h.filed
      listed := fun p hp => by
        have hsound : Sound flow.procedures := h.procedures ▸ h.sound₂.procedures
        obtain ⟨l, hl, -⟩ := Procedures.exists_sentencesOf_eq_ok hsound hp
        exact ⟨l, hl, h.shelved.pairwise_sentencesOf hl, fun j => h.shelved.mem_sentencesOf hl,
          Procedures.firstSentence_eq_ok_head? hl⟩ }

end ProgramUnit.Arises

/-- **The catalog and the graph agree** in every program of every tree. -/
theorem StatementTree.build_registers (t : StatementTree) (o : Options) :
    ∃ flows, t.build o = .ok flows ∧
      List.Forall₂ (fun u flow => u.Registers o flow) t.units flows := by
  obtain ⟨flows, hbuild, hflows⟩ := t.exists_build o
  refine ⟨flows, hbuild, hflows.imp fun u flow hyields => ?_⟩
  cases hd : u.division with
  | none => exact ProgramUnit.registers_of_none o hd (hyields.of_none hd).2.1
  | some d =>
    obtain ⟨t, chs, hplay, houtline, -, hlisted⟩ := u.exists_outline o hd
    obtain ⟨s, s₁, s₂, -, harises⟩ := hyields.arises_of_outline hd houtline hplay
    exact harises.registers hlisted hd

end CobolFlow
