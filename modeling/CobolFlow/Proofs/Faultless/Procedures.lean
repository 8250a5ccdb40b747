import CobolFlow.Procedures
import CobolFlow.Proofs.Faultless
import Mathlib.Order.Nat
import Mathlib.Data.Prod.Basic

/-!
# Changes of a catalog

A catalog is sound if the procedures and sentences it lists in the bodies of procedures, as owners
and under names are all declared. The implicit section is found by its place, the first, and known
by the number it carries, so procedures have to carry the number of their place as well.

## Main definitions

* `Procedures.WellFormed` — the invariant

## Main results

* `Procedures.exists_resolve_eq_ok` — a reference can always be looked up, and what it stands for
  is declared
* `Procedures.exists_sentencesOf_eq_ok`, `Procedures.exists_firstSentence_eq_ok` — so can the
  sentences of a procedure
-/

namespace CobolFlow

namespace Procedures

/-- How many procedures and sentences there are. -/
def extent (c : Procedures) : ℕ × ℕ := (c.procedures.size, c.sentences.size)

/-- What a part of a procedure's body names is declared. -/
def Declares (c : Procedures) : Part → Prop
  | .sentence s => s < c.sentences.size
  | .paragraphPart p => p < c.procedures.size

/-- Every procedure and sentence that the catalog mentions is declared. -/
structure WellFormed (c : Procedures) : Prop where
  placed : ∀ {p : ProcedureId} {procedure : Procedure}, c.procedures[p]? = some procedure →
    procedure.id = p
  owner_lt : ∀ {p : ProcedureId} {procedure : Procedure}, c.procedures[p]? = some procedure →
    ∀ owner ∈ procedure.owner, owner < c.procedures.size
  part : ∀ {p : ProcedureId} {procedure : Procedure}, c.procedures[p]? = some procedure →
    ∀ part ∈ procedure.parts, c.Declares part
  index_lt : ∀ key, ∀ p ∈ c.index.find key, p < c.procedures.size

instance : Growing Procedures where
  __ := Preorder.lift extent
  Sound := WellFormed

theorem le_def {c c' : Procedures} : c ≤ c' ↔
    c.procedures.size ≤ c'.procedures.size ∧ c.sentences.size ≤ c'.sentences.size := Iff.rfl

variable {c c' : Procedures} {p : ProcedureId} {s : SentenceId}

theorem le_of_extent_eq (h : c.extent = c'.extent) : c ≤ c' := le_of_eq (α := ℕ × ℕ) h

theorem Declares.mono {part : Part} (h : c.Declares part) (hle : c ≤ c') : c'.Declares part := by
  cases part with
  | sentence s => exact Nat.lt_of_lt_of_le h hle.2
  | paragraphPart p => exact Nat.lt_of_lt_of_le h hle.1

/-! ### Look-ups -/

theorem procedure_eq_ok_iff {procedure : Procedure} :
    c.procedure p = .ok procedure ↔ c.procedures[p]? = some procedure := by
  unfold Procedures.procedure; split <;> simp_all

theorem sentence_eq_ok_iff {sentence : Sentence} :
    c.sentence s = .ok sentence ↔ c.sentences[s]? = some sentence := by
  unfold Procedures.sentence; split <;> simp_all

theorem exists_procedure_eq_ok (h : p < c.procedures.size) :
    ∃ procedure, c.procedure p = .ok procedure ∧ c.procedures[p]? = some procedure := by
  have hp : c.procedures[p]? = some c.procedures[p] := Array.getElem?_eq_getElem h
  exact ⟨_, procedure_eq_ok_iff.2 hp, hp⟩

theorem exists_sentence_eq_ok (h : s < c.sentences.size) :
    ∃ sentence, c.sentence s = .ok sentence ∧ c.sentences[s]? = some sentence := by
  have hs : c.sentences[s]? = some c.sentences[s] := Array.getElem?_eq_getElem h
  exact ⟨_, sentence_eq_ok_iff.2 hs, hs⟩

theorem exists_ancestors_eq_ok (hc : Sound c) (h : p < c.procedures.size) :
    ∃ names, c.ancestors p = .ok names := by
  obtain ⟨procedure, hok, hp⟩ := exists_procedure_eq_ok h
  rw [ancestors, hok, ok_bind]
  split
  · next owner howner =>
    obtain ⟨section_, hok, -⟩ := exists_procedure_eq_ok (hc.owner_lt hp owner howner)
    exact ⟨_, by rw [hok]; rfl⟩
  · exact ⟨_, rfl⟩

/-- A reference can always be looked up, and what it stands for is declared. -/
theorem exists_resolve_eq_ok (hc : Sound c) (n : QualifiedName) :
    ∃ r, c.resolve n = .ok r ∧ ∀ p, r = .unique p → p ∈ c.index.find (foldCase n.name) := by
  obtain ⟨found, hfound, hmem⟩ := exists_filterM_eq_ok (l := c.index.find (foldCase n.name))
    (f := c.qualifiesAs n.qualifiers) fun p hp => by
      obtain ⟨names, hnames⟩ := exists_ancestors_eq_ok hc (hc.index_lt _ p hp)
      exact ⟨_, by rw [qualifiesAs, hnames]; rfl⟩
  refine ⟨.ofMatches found, by rw [resolve, hfound]; rfl, fun p hp => ?_⟩
  match found, hp with
  | [q], hp =>
    obtain rfl : q = p := Resolution.unique.inj hp
    exact hmem q (by simp)

/-- The sentences of a procedure and of the paragraphs it lists are declared. -/
theorem exists_sentencesOf_eq_ok (hc : Sound c) (h : p < c.procedures.size) :
    ∃ found, c.sentencesOf p = .ok found ∧ ∀ s ∈ found, s < c.sentences.size := by
  induction hk : c.procedures.size - p using Nat.strong_induction_on generalizing p with
  | _ k ih =>
    have hp : c.procedures[p]? = some c.procedures[p] := Array.getElem?_eq_getElem h
    rw [sentencesOf, dif_pos h]
    refine exists_bind_eq_ok (P := fun found => ∀ l ∈ found, ∀ s ∈ l, s < c.sentences.size)
      (exists_mapM_eq_ok fun part hpart => ?_) fun found hmem => ⟨found.flatten, rfl, ?_⟩
    · have hdecl := hc.part hp part hpart
      cases part with
      | sentence s => exact ⟨[s], rfl, fun t ht => List.mem_singleton.1 ht ▸ hdecl⟩
      | paragraphPart q =>
        by_cases hq : p < q
        · obtain ⟨found, hfound, hmem⟩ := ih _ (by lia) hdecl rfl
          exact ⟨found, by simpa [hq] using hfound, hmem⟩
        · exact ⟨[], by simp [hq]; rfl, by simp⟩
    · intro s hs
      obtain ⟨l, hl, hs⟩ := List.mem_flatten.1 hs
      exact hmem l hl s hs

theorem exists_firstSentence_eq_ok (hc : Sound c) (h : p < c.procedures.size) :
    ∃ found, c.firstSentence p = .ok found ∧ ∀ s ∈ found, s < c.sentences.size := by
  induction hk : c.procedures.size - p using Nat.strong_induction_on generalizing p with
  | _ k ih =>
    have hp : c.procedures[p]? = some c.procedures[p] := Array.getElem?_eq_getElem h
    rw [firstSentence, dif_pos h]
    refine exists_findSomeM?_eq_ok fun part hpart => ?_
    have hdecl := hc.part hp part hpart
    cases part with
    | sentence s => exact ⟨some s, rfl, fun t ht => Option.mem_some.1 ht ▸ hdecl⟩
    | paragraphPart q =>
      by_cases hq : p < q
      · obtain ⟨found, hfound, hmem⟩ := ih _ (by lia) hdecl rfl
        exact ⟨found, by simpa [hq] using hfound, hmem⟩
      · exact ⟨none, by simp [hq]; rfl, by simp⟩

/-! ### Changes -/

theorem modifyProcedure_faultless (h : p < c.procedures.size) {f : Procedure → Procedure}
    (hid : ∀ procedure, (f procedure).id = procedure.id)
    (howner : ∀ procedure, (f procedure).owner = procedure.owner)
    (hparts : Sound c → ∀ procedure, c.procedures[p]? = some procedure →
      ∀ part ∈ (f procedure).parts, c.Declares part) :
    Faultless (modifyProcedure p f) c fun _ c' => c'.sentences = c.sentences := by
  intro hc
  have hold : ∀ (q : ProcedureId) (procedure : Procedure),
      (c.procedures.modify p f)[q]? = some procedure → ∃ old, c.procedures[q]? = some old ∧
        procedure.id = old.id ∧ procedure.owner = old.owner ∧
          ∀ part ∈ procedure.parts, c.Declares part := fun q procedure hq => by
    rw [Array.getElem?_modify] at hq
    split at hq
    · next hpq =>
      subst hpq
      obtain ⟨old, hold, rfl⟩ := Option.map_eq_some_iff.1 hq
      exact ⟨old, hold, hid old, howner old, hparts hc old hold⟩
    · exact ⟨procedure, hq, rfl, rfl, hc.part hq⟩
  have hle : c ≤ { c with procedures := c.procedures.modify p f } := by
    simp [le_def]
  refine ⟨(), _, by rw [modifyProcedure, if_pos h], ?_, hle, rfl⟩
  constructor
  · intro q procedure hq
    obtain ⟨old, hold, hid, -⟩ := hold q procedure hq
    rw [hid, hc.placed hold]
  · intro q procedure hq
    obtain ⟨old, hold, -, howner, -⟩ := hold q procedure hq
    rw [howner]
    exact fun o ho => (hc.owner_lt hold o ho).trans_le hle.1
  · intro q procedure hq part hpart
    obtain ⟨_, -, -, -, hdecl⟩ := hold q procedure hq
    exact (hdecl part hpart).mono hle
  · exact fun key q hq => (hc.index_lt key q hq).trans_le hle.1

theorem addPart_faultless {part : Part} (h : p < c.procedures.size) (hpart : c.Declares part) :
    Faultless (addPart p part) c fun _ c' => c'.sentences = c.sentences := by
  refine modifyProcedure_faultless h (fun _ => rfl) (fun _ => rfl) fun hc procedure hp q hq => ?_
  obtain hq | hq := List.mem_append.1 hq
  · exact hc.part hp q hq
  · exact List.mem_singleton.1 hq ▸ hpart

/-- What is said of a sentence is its blocks and its slot, which are none of the catalog's. -/
theorem modifySentence_faultless (h : s < c.sentences.size) (f : Sentence → Sentence) :
    Faultless (modifySentence s f) c fun _ c' =>
      c' = { c with sentences := c.sentences.modify s f } := by
  intro hc
  have hle : c ≤ { c with sentences := c.sentences.modify s f } := by simp [le_def]
  refine ⟨(), _, by rw [modifySentence, if_pos h], ?_, hle, rfl⟩
  exact { hc with part := fun hp part hpart => (hc.part hp part hpart).mono hle }

theorem declare_faultless {make : ProcedureId → Procedure} (hid : ∀ p, (make p).id = p)
    (howner : ∀ p, ∀ owner ∈ (make p).owner, owner < c.procedures.size)
    (hparts : ∀ p, (make p).parts = []) :
    Faultless (declare make) c fun p c' =>
      p < c'.procedures.size ∧ c'.sentences = c.sentences := by
  have hle : c ≤ { c with procedures := c.procedures.push (make c.procedures.size) } := by
    simp [le_def]
  refine .modifyGet (fun hc => ?_) hle ⟨by simp, rfl⟩
  have hold : ∀ (q : ProcedureId) (procedure : Procedure),
      (c.procedures.push (make c.procedures.size))[q]? = some procedure →
        c.procedures[q]? = some procedure ∨
          q = c.procedures.size ∧ make c.procedures.size = procedure := fun q procedure hq => by
    rw [Array.getElem?_push] at hq
    split at hq
    · exact .inr ⟨‹_›, Option.some.inj hq⟩
    · exact .inl hq
  constructor
  · intro q procedure hq
    obtain hq | ⟨rfl, rfl⟩ := hold q procedure hq
    · exact hc.placed hq
    · exact hid _
  · intro q procedure hq owner ho
    obtain hq | ⟨-, rfl⟩ := hold q procedure hq
    · exact (hc.owner_lt hq owner ho).trans_le hle.1
    · exact (howner _ owner ho).trans_le hle.1
  · intro q procedure hq part hpart
    obtain hq | ⟨-, rfl⟩ := hold q procedure hq
    · exact (hc.part hq part hpart).mono hle
    · simp [hparts] at hpart
  · exact fun key q hq => (hc.index_lt key q hq).trans_le hle.1

theorem listName_faultless (name : String) (h : p < c.procedures.size) :
    Faultless (listName name p) c fun _ c' =>
      c'.procedures = c.procedures ∧ c'.sentences = c.sentences := by
  refine .modify (fun hc => { hc with index_lt := fun key q hq => ?_ })
    (le_of_extent_eq rfl) ⟨rfl, rfl⟩
  rw [NameIndex.find_insert] at hq
  split at hq
  · obtain hq | hq := List.mem_append.1 hq
    · exact hc.index_lt _ q hq
    · exact List.mem_singleton.1 hq ▸ h
  · exact hc.index_lt _ q hq

theorem rootSection_faultless :
    Faultless rootSection c fun p c' =>
      p < c'.procedures.size ∧ c'.sentences = c.sentences := by
  refine .get_bind fun hc => ?_
  split
  · next root hroot =>
    refine .pure fun _ => ⟨?_, rfl⟩
    rw [hc.placed hroot]
    exact (Array.getElem?_eq_some_iff.1 hroot).1
  · exact declare_faultless (fun _ => rfl) (by simp) fun _ => rfl

theorem addSection_faultless (name : String) (declaratives : Bool) (span : Span) :
    Faultless (addSection name declaratives span) c fun p c' =>
      p < c'.procedures.size ∧ c'.sentences = c.sentences := by
  refine .bind (declare_faultless (fun _ => rfl) (by simp) fun _ => rfl) ?_
  intro p c₁ _ _ hp
  refine .bind (listName_faultless name hp.1) fun _ c₂ _ h₂ hkeep => ?_
  exact .pure fun _ => ⟨hp.1.trans_le h₂.1, hkeep.2.trans hp.2⟩

theorem addParagraph_faultless (name : String) {owner : Option ProcedureId}
    (howner : ∀ p ∈ owner, p < c.procedures.size) (declaratives : Bool) (span : Span) :
    Faultless (addParagraph name owner declaratives span) c fun p c' =>
      p < c'.procedures.size ∧ c'.sentences = c.sentences := by
  refine .bind (declare_faultless (fun _ => rfl) (fun _ => howner) fun _ => rfl) ?_
  intro p c₁ _ h₁ hp
  have hlist : ∀ c₂ : Procedures, c₁ ≤ c₂ → c₂.sentences = c₁.sentences →
      Faultless (do listName name p; return p) c₂ fun p c' =>
        p < c'.procedures.size ∧ c'.sentences = c.sentences := fun c₂ h₂ hsame => by
    refine .bind (listName_faultless name (hp.1.trans_le h₂.1)) fun _ c₃ _ h₃ hkeep => ?_
    refine .pure fun _ => ⟨?_, hkeep.2.trans (hsame.trans hp.2)⟩
    exact hp.1.trans_le (h₂.1.trans h₃.1)
  dsimp only
  split
  · next =>
    refine .bind (addPart_faultless ((howner _ rfl).trans_le h₁.1) hp.1) ?_
    exact fun _ c₂ _ h₂ hsame => hlist c₂ h₂ hsame
  · exact hlist c₁ le_rfl rfl

/-- A new sentence has no blocks. -/
theorem addSentence_faultless {owner : Option ProcedureId}
    (howner : ∀ p ∈ owner, p < c.procedures.size) (declaratives : Bool) :
    Faultless (addSentence owner declaratives) c fun s c' => s = c.sentences.size ∧
      s < c'.sentences.size ∧
      c'.sentences = c.sentences.push { id := c.sentences.size, owner, declaratives } := by
  set c₀ : Procedures := { c with
    sentences := c.sentences.push { id := c.sentences.size, owner, declaratives } } with hc₀
  refine .bind (P := fun s c' => s = c.sentences.size ∧ c' = c₀) ?_ ?_
  · have hle : c ≤ c₀ := by simp [le_def, hc₀]
    refine .modifyGet (fun hc => ?_) hle ⟨rfl, rfl⟩
    exact { hc with part := fun hp part hpart => (hc.part hp part hpart).mono hle }
  · rintro _ _ - h₁ ⟨rfl, rfl⟩
    have hlt : c.sentences.size < c₀.sentences.size := by simp [hc₀]
    dsimp only
    split
    · next p =>
      refine .bind (addPart_faultless ((howner _ rfl).trans_le h₁.1) hlt) fun _ c₂ _ h₂ hsame => ?_
      exact .pure fun _ => ⟨rfl, hlt.trans_le h₂.2, hsame⟩
    · exact .pure fun _ => ⟨rfl, hlt, rfl⟩

end Procedures

end CobolFlow
