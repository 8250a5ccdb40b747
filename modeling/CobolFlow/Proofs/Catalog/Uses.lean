import CobolFlow.Proofs.Catalog.Order
import CobolFlow.Proofs.Division.Onward

/-!
# The sections of the DECLARATIVES

Whether a sentence belongs to the DECLARATIVES is noted with the sentence, with its paragraph and
with its section, and the three agree. A section of the DECLARATIVES is entered from outside at its
first sentence, whether this is its own or one of a paragraph: the plan expects an entry from the
header of the section to the next sentence.

## Main definitions

* `Procedures.isUse`, `Procedures.OpensUse` — the sections of the DECLARATIVES, and the sentences
  with which they begin
* `Procedures.Agrees` — what is noted agrees
* `Plan.Headed` — this, and what the plan expects

## Main results

* `DivisionText.headed_plan` — true of the plan of a division
-/

namespace CobolFlow

namespace Procedures

/-- Whether a procedure is a section of the DECLARATIVES. -/
def isUse (c : Procedures) (s : ProcedureId) : Bool :=
  c.procedures[s]?.any fun S => S.kind = .sectionProcedure && S.declaratives

/-- A section of the DECLARATIVES begins with the sentence. -/
def OpensUse (c : Procedures) (j : SentenceId) : Prop :=
  ∃ s, c.isUse s = true ∧ c.Under s j ∧ ∀ i < j, ¬ c.Under s i

/-- The DECLARATIVES are the same for sections, paragraphs and sentences. -/
structure Agrees (c : Procedures) : Prop where
  root : ∀ {R : Procedure}, c.procedures[0]? = some R → R.declaratives = false
  paragraph : ∀ {q s : ProcedureId} {Q S : Procedure}, c.procedures[q]? = some Q →
    Q.kind = .paragraphProcedure → Q.owner = some s → c.procedures[s]? = some S →
      S.declaratives = Q.declaratives
  sentence : ∀ {j : SentenceId} {t : Sentence} {q : ProcedureId} {Q : Procedure},
    c.sentences[j]? = some t → t.owner = some q → c.procedures[q]? = some Q →
      Q.declaratives = t.declaratives

/-- Procedures and sentences stay as they are, but for what is filed under them. -/
structure Grows (c c' : Procedures) : Prop where
  keeps : ∀ {q : ProcedureId} {Q : Procedure}, c.procedures[q]? = some Q →
    ∃ Q', c'.procedures[q]? = some Q' ∧ Q'.kind = Q.kind ∧ Q'.owner = Q.owner ∧
      Q'.declaratives = Q.declaratives
  sentences : c.KeepsSentences c'

variable {c c' : Procedures} {p q s : ProcedureId} {j : SentenceId}

theorem isUse_iff : c.isUse s = true ↔ ∃ S, c.procedures[s]? = some S ∧
    S.kind = .sectionProcedure ∧ S.declaratives = true := by
  rw [isUse]
  cases c.procedures[s]? <;> simp

theorem Under.lt (hc : c.Shelved) (h : c.Under s j) :
    j < c.sentences.size ∧ s < c.procedures.size := by
  obtain ⟨t, ht, q, hq, rfl | ⟨Q, hQ, hk, howner⟩⟩ := h
  · exact ⟨(Array.getElem?_eq_some_iff.1 ht).1, hc.owner_lt ht _ hq⟩
  · obtain ⟨s', S, howner', -, hS, -⟩ := hc.paragraph hQ hk
    obtain rfl := Option.some.inj (howner'.symm.trans howner)
    exact ⟨(Array.getElem?_eq_some_iff.1 ht).1, (Array.getElem?_eq_some_iff.1 hS).1⟩

/-- What is under a section of the DECLARATIVES is in the DECLARATIVES. -/
theorem Agrees.of_under (hc : c.Agrees) {S : Procedure} {t : Sentence}
    (hS : c.procedures[s]? = some S) (ht : c.sentences[j]? = some t) (h : c.Under s j) :
    t.declaratives = S.declaratives := by
  obtain ⟨t', ht', q, hq, rfl | ⟨Q, hQ, hk, howner⟩⟩ := h
  · obtain rfl := Option.some.inj (ht.symm.trans ht')
    exact (hc.sentence ht hq hS).symm
  · obtain rfl := Option.some.inj (ht.symm.trans ht')
    rw [← hc.sentence ht hq hQ, hc.paragraph hQ hk howner hS]

namespace Grows

variable (h : c.Grows c') (hc : c.Shelved)
include h

theorem isUse (hs : s < c.procedures.size) : c'.isUse s = c.isUse s := by
  obtain ⟨S', hS', hkind, -, hdeclaratives⟩ := h.keeps (Array.getElem?_eq_getElem hs)
  rw [Procedures.isUse, Procedures.isUse, hS', Array.getElem?_eq_getElem hs, Option.any_some,
    Option.any_some, hkind, hdeclaratives]

include hc

theorem under (hj : j < c.sentences.size) : c'.Under s j ↔ c.Under s j := by
  have ht := Array.getElem?_eq_getElem hj
  set t := c.sentences[j]
  have ht' := h.sentences j t ht
  constructor
  · rintro ⟨t₁, ht₁, q, hq, hsame⟩
    obtain rfl := Option.some.inj (ht'.symm.trans ht₁)
    refine ⟨t, ht, q, hq, hsame.imp_right fun ⟨Q', hQ', hk, howner⟩ => ?_⟩
    have hQ := Array.getElem?_eq_getElem (hc.owner_lt ht q hq)
    obtain ⟨Q₁, hQ₁, hk₁, howner₁, -⟩ := h.keeps hQ
    obtain rfl := Option.some.inj (hQ'.symm.trans hQ₁)
    exact ⟨_, hQ, hk₁.symm.trans hk, howner₁.symm.trans howner⟩
  · rintro ⟨t₁, ht₁, q, hq, hsame⟩
    obtain rfl := Option.some.inj (ht.symm.trans ht₁)
    refine ⟨t, ht', q, hq, hsame.imp_right fun ⟨Q, hQ, hk, howner⟩ => ?_⟩
    obtain ⟨Q₁, hQ₁, hk₁, howner₁, -⟩ := h.keeps hQ
    exact ⟨Q₁, hQ₁, hk₁.trans hk, howner₁.trans howner⟩

/-- A section begins with the sentence it began with. -/
theorem opensUse (hj : j < c.sentences.size) : c'.OpensUse j ↔ c.OpensUse j := by
  refine exists_congr fun s => ?_
  have hunder := h.under hc (s := s) hj
  have hbefore : (∀ i < j, ¬ c'.Under s i) ↔ ∀ i < j, ¬ c.Under s i :=
    forall₂_congr fun i hi => not_congr (h.under hc (hi.trans hj))
  rw [hunder, hbefore]
  refine and_congr_left fun hs => ?_
  rw [h.isUse (Under.lt hc hs.1).2]

end Grows

/-! ### Declaring a procedure, and opening a sentence -/

theorem grows_push (c : Procedures) (P : Procedure) (index : NameIndex) :
    c.Grows { c with procedures := c.procedures.push P, index } where
  keeps hQ := ⟨_, by rw [Array.getElem?_push, if_neg (Array.getElem?_eq_some_iff.1 hQ).1.ne, hQ],
    rfl, rfl, rfl⟩
  sentences := .of_eq rfl

theorem Grows.file (h : c.Grows c') (p : ProcedureId) (part : Part) :
    c.Grows (c'.file p part) where
  keeps hQ := by
    obtain ⟨Q', hQ', hk', ho', hd'⟩ := h.keeps hQ
    obtain ⟨Q₁, hQ₁, hk₁, ho₁, hd₁, -⟩ := Shelved.exists_file hQ' p part
    exact ⟨Q₁, hQ₁, hk₁.trans hk', ho₁.trans ho', hd₁.trans hd'⟩
  sentences := h.sentences

theorem grows_withParagraph (c : Procedures) (name : String) (s : ProcedureId)
    (declaratives : Bool) (span : Span) :
    c.Grows (c.withParagraph name s declaratives span) :=
  { (grows_push c _ c.index).file s (.paragraphPart c.procedures.size) with }

theorem grows_withSentence (c : Procedures) (p : ProcedureId) (declaratives : Bool) :
    c.Grows (c.withSentence p declaratives) := by
  have hpush : ∀ t : Sentence, c.Grows { c with sentences := c.sentences.push t } := fun t =>
    ⟨fun hQ => ⟨_, hQ, rfl, rfl, rfl⟩, .of_push rfl⟩
  exact (hpush _).file p (.sentence c.sentences.size)

/-- What agrees still does if what is new agrees with it. -/
theorem Agrees.grow (h : c.Agrees) (hc : c.Shelved) (hgrows : c.Grows c')
    (hroot : 0 < c.procedures.size)
    (hparagraph : ∀ {q s : ProcedureId} {Q S : Procedure}, c.procedures.size ≤ q →
      c'.procedures[q]? = some Q → Q.kind = .paragraphProcedure → Q.owner = some s →
        c'.procedures[s]? = some S → S.declaratives = Q.declaratives)
    (hsentence : ∀ {j : SentenceId} {t : Sentence} {q : ProcedureId} {Q : Procedure},
      c.sentences.size ≤ j → c'.sentences[j]? = some t → t.owner = some q →
        c'.procedures[q]? = some Q → Q.declaratives = t.declaratives) : c'.Agrees := by
  have hback : ∀ {q : ProcedureId} {Q' : Procedure}, q < c.procedures.size →
      c'.procedures[q]? = some Q' → ∃ Q, c.procedures[q]? = some Q ∧ Q'.kind = Q.kind ∧
        Q'.owner = Q.owner ∧ Q'.declaratives = Q.declaratives := fun {q Q'} hq hQ' => by
    obtain ⟨Q₁, hQ₁, hsame⟩ := hgrows.keeps (Array.getElem?_eq_getElem hq)
    obtain rfl := Option.some.inj (hQ'.symm.trans hQ₁)
    exact ⟨_, Array.getElem?_eq_getElem hq, hsame⟩
  refine ⟨fun hR => ?_, fun {q s Q S} hQ hk howner hS => ?_, fun {j t q Q} ht howner hQ => ?_⟩
  · obtain ⟨R₀, hR₀, -, -, hd⟩ := hback hroot hR
    exact hd.trans (h.root hR₀)
  · obtain hq | hq := Nat.lt_or_ge q c.procedures.size
    · obtain ⟨Q₀, hQ₀, hk₀, howner₀, hd⟩ := hback hq hQ
      obtain ⟨s', S₀, howner', -, hS₀, -⟩ := hc.paragraph hQ₀ (hk₀.symm.trans hk)
      obtain rfl := Option.some.inj (howner'.symm.trans (howner₀.symm.trans howner))
      obtain ⟨S₁, hS₁, -, -, hd₁⟩ := hback (Array.getElem?_eq_some_iff.1 hS₀).1 hS
      obtain rfl := Option.some.inj (hS₀.symm.trans hS₁)
      rw [hd, hd₁, h.paragraph hQ₀ (hk₀.symm.trans hk) howner' hS₀]
    · exact hparagraph hq hQ hk howner hS
  · obtain hj | hj := Nat.lt_or_ge j c.sentences.size
    · have ht₀ := Array.getElem?_eq_getElem hj
      obtain rfl := Option.some.inj (ht.symm.trans (hgrows.sentences _ _ ht₀))
      obtain ⟨Q₀, hQ₀, -, -, hd⟩ := hback (hc.owner_lt ht₀ q howner) hQ
      exact hd.trans (h.sentence ht₀ howner hQ₀)
    · exact hsentence hj ht howner hQ

end Procedures

/-- What a plan expects of its catalog: the next sentence is entered from outside if it begins a
section of the DECLARATIVES. -/
structure Plan.Headed (p : Plan) : Prop extends p.Shelved where
  agrees : p.catalog.Agrees
  entry : p.declarativeEntry = true → p.declaratives.isSome
  pending : p.declarativeEntry = true ↔
    ∃ s ∈ p.currentSection, p.catalog.isUse s = true ∧ ∀ j, ¬ p.catalog.Under s j
  known : ∀ q ∈ p.passages, ∀ j ∈ q.sentence, j < p.catalog.sentences.size
  entered : ∀ q ∈ p.passages, q.entered = true ↔ ∃ j ∈ q.sentence, p.catalog.OpensUse j

/-- What is open is in the DECLARATIVES if the plan is. -/
def Plan.Sided (p : Plan) : Prop := ∀ (q : ProcedureId) (Q : Procedure),
  p.currentParagraph = some q ∨ p.currentSection = some q → p.catalog.procedures[q]? = some Q →
    Q.declaratives = p.declaratives.isSome

namespace Plan.Headed

variable {p p' : Plan}

/-- What is open are a section and, if any, one of its paragraphs. -/
theorem exists_open (h : p.Shelved) : ∃ q s S, p.currentParagraph.or p.currentSection = some q ∧
    p.currentSection = some s ∧ p.catalog.procedures[s]? = some S ∧ S.kind = .sectionProcedure ∧
    (q = s ∨ ∃ Q, p.catalog.procedures[q]? = some Q ∧ Q.kind = .paragraphProcedure ∧
      Q.owner = some s) := by
  obtain ⟨s, hs⟩ := Option.isSome_iff_exists.1 h.isOpen
  obtain ⟨S, hS, hkind⟩ := h.currentSection s hs
  cases hparagraph : p.currentParagraph with
  | none => exact ⟨s, s, S, by rw [Option.none_or, hs], hs, hS, hkind, .inl rfl⟩
  | some q =>
    obtain ⟨-, s', S', hs', hS', hlast⟩ := h.within q hparagraph
    obtain rfl := Option.some.inj (hs.symm.trans hs')
    exact ⟨q, s, S, rfl, hs, hS, hkind, .inr (h.shelved.owns hS' _ (List.mem_of_getLast? hlast))⟩

/-- A catalog that grows by no sentence. -/
theorem grow (h : p.Headed) (hp' : p'.Shelved) (hgrows : p.catalog.Grows p'.catalog)
    (hsentences : p'.catalog.sentences = p.catalog.sentences) (hagrees : p'.catalog.Agrees)
    (hpassages : p'.passages = p.passages)
    (hentry : p'.declarativeEntry = true → p'.declaratives.isSome)
    (hpending : p'.declarativeEntry = true ↔
      ∃ s ∈ p'.currentSection, p'.catalog.isUse s = true ∧ ∀ j, ¬ p'.catalog.Under s j) :
    p'.Headed where
  toShelved := hp'
  agrees := hagrees
  entry := hentry
  pending := hpending
  known := by rw [hpassages, hsentences]; exact h.known
  entered := by
    rw [hpassages]
    intro q hq
    rw [h.entered q hq]
    refine exists_congr fun j => and_congr_right fun hj => ?_
    exact (hgrows.opensUse h.shelved (h.known q hq j hj)).symm

/-- A new sentence is under the section that is open, and under no other. -/
theorem under_withSentence (h : p.Shelved) {q : ProcedureId}
    (hq : p.currentParagraph.or p.currentSection = some q) (declaratives : Bool)
    {s : ProcedureId} {S : Procedure} (hS : p.catalog.procedures[s]? = some S)
    (hkind : S.kind = .sectionProcedure) :
    (p.catalog.withSentence q declaratives).Under s p.catalog.sentences.size ↔
      p.currentSection = some s := by
  obtain ⟨q', s', S', hq', hs', hS', hkind', hsame⟩ := exists_open h
  obtain rfl := Option.some.inj (hq.symm.trans hq')
  have hgrows := p.catalog.grows_withSentence q declaratives
  have ht : (p.catalog.withSentence q declaratives).sentences[p.catalog.sentences.size]? =
      some { id := p.catalog.sentences.size, owner := some q, declaratives } :=
    Array.getElem?_push_size
  constructor
  · rintro ⟨t, ht', r, hr, hunder⟩
    obtain rfl := Option.some.inj (ht.symm.trans ht')
    obtain rfl : q = r := Option.some.inj hr
    obtain rfl | ⟨Q, hQ, hk, howner⟩ := hsame
    · obtain rfl | ⟨Q', hQ', hk', -⟩ := hunder
      · exact hs'
      · obtain ⟨Q₁, hQ₁, hk₁, -⟩ := hgrows.keeps hS'
        obtain rfl := Option.some.inj (hQ₁.symm.trans hQ')
        exact nomatch hk'.symm.trans (hk₁.trans hkind')
    · obtain ⟨Q₁, hQ₁, hk₁, howner₁, -⟩ := hgrows.keeps hQ
      obtain rfl | ⟨Q', hQ', -, howner'⟩ := hunder
      · obtain rfl := Option.some.inj (hQ.symm.trans hS)
        exact nomatch hk.symm.trans hkind
      · obtain rfl := Option.some.inj (hQ₁.symm.trans hQ')
        rw [hs', ← howner, ← howner₁, howner']
  · intro hs
    obtain rfl := Option.some.inj (hs'.symm.trans hs)
    refine ⟨_, ht, q, rfl, hsame.imp_right fun ⟨Q, hQ, hk, howner⟩ => ?_⟩
    obtain ⟨Q₁, hQ₁, hk₁, howner₁, -⟩ := hgrows.keeps hQ
    exact ⟨Q₁, hQ₁, hk₁.trans hk, howner₁.trans howner⟩

/-- A change of the catalog, of which it is known that what it leads to is in order. -/
theorem edit {P : Plan → Prop} {α : Type} {e : Procedures.Edit α} {go : α → Procedures → Plan}
    (h : (p.edit e go).Shelved)
    (hgo : ∀ a c, e p.catalog = .ok (a, c) → (go a c).Shelved → P (go a c)) (hp : P p) :
    P (p.edit e go) := by
  rw [Plan.edit] at h ⊢
  cases hok : e p.catalog with
  | error fault => exact hp
  | ok r =>
    rw [hok] at h
    exact hgo r.1 r.2 hok h

/-- A procedure of a catalog that has grown, if it was there before. -/
theorem declaratives_eq {c c' : Procedures} (hgrows : c.Grows c') {q : ProcedureId}
    {Q' : Procedure} (hq : q < c.procedures.size) (hQ' : c'.procedures[q]? = some Q') :
    ∃ Q, c.procedures[q]? = some Q ∧ Q'.declaratives = Q.declaratives := by
  obtain ⟨Q₁, hQ₁, -, -, hd⟩ := hgrows.keeps (Array.getElem?_eq_getElem hq)
  obtain rfl := Option.some.inj (hQ'.symm.trans hQ₁)
  exact ⟨_, Array.getElem?_eq_getElem hq, hd⟩

theorem openSentence (h : p.Headed) (hsided : p.Sided) (id : NodeId) :
    (p.openSentence id).Headed ∧ (p.openSentence id).Sided := by
  obtain ⟨q, s, S, hq, hs, hS, hkind, hsame⟩ := exists_open h.toShelved
  refine edit (P := fun p' => p'.Headed ∧ p'.Sided) (h.toShelved.openSentence id)
    (fun j c hadd hshelved => ?_) ⟨h, hsided⟩
  rw [hq] at hadd
  obtain ⟨rfl, hlt, rfl⟩ := Procedures.eq_of_addSentence_eq_ok hadd
  set c' := p.catalog.withSentence q p.declaratives.isSome with hc'
  set n := p.catalog.sentences.size with hn
  have hgrows : p.catalog.Grows c' := p.catalog.grows_withSentence q p.declaratives.isSome
  have hsize : c'.procedures.size = p.catalog.procedures.size := Procedures.size_file _ _ _
  have hsentences : c'.sentences.size = n + 1 := Array.size_push _
  have hunder : ∀ {r : ProcedureId}, p.catalog.isUse r = true →
      (c'.Under r n ↔ p.currentSection = some r) := fun hr => by
    obtain ⟨R, hR, hk, -⟩ := Procedures.isUse_iff.1 hr
    exact under_withSentence h.toShelved hq _ hR hk
  -- What is open has the mark that the new sentence gets.
  have hmark : ∀ {r : ProcedureId} {R' : Procedure},
      p.currentParagraph = some r ∨ p.currentSection = some r → c'.procedures[r]? = some R' →
        R'.declaratives = p.declaratives.isSome := fun hr hR' => by
    obtain ⟨R, hR, hd⟩ := declaratives_eq hgrows
      (hsize ▸ (Array.getElem?_eq_some_iff.1 hR').1) hR'
    exact hd.trans (hsided _ _ hr hR)
  refine
    ⟨{ toShelved := hshelved
       agrees := h.agrees.grow h.shelved hgrows (Nat.zero_lt_of_lt hlt) (fun hge hQ => ?_)
         fun hge ht howner hQ => ?_
       entry := nofun
       pending := ⟨nofun, fun ⟨r, hr, huse, hnone⟩ => ?_⟩
       known := List.forall_mem_append.2 ⟨fun q' hq' j hj => ?_, ?_⟩
       entered := List.forall_mem_append.2 ⟨fun q' hq' => ?_, ?_⟩ }, fun _ _ hr hR => hmark hr hR⟩
  · exact absurd (Array.getElem?_eq_some_iff.1 hQ).1 (hsize ▸ Nat.not_lt.2 hge)
  · obtain ⟨hltn, -⟩ := Array.getElem?_eq_some_iff.1 ht
    obtain rfl : n = _ := Nat.le_antisymm hge (Nat.le_of_lt_succ (hltn.trans_eq hsentences))
    obtain rfl := Option.some.inj (Array.getElem?_push_size.symm.trans ht)
    obtain rfl : q = _ := Option.some.inj howner
    refine hmark ?_ hQ
    rw [Option.or_eq_some_iff] at hq
    exact hq.imp_right And.right
  · obtain ⟨R, hR, -⟩ := h.currentSection r hr
    have huse : c'.isUse r = true := huse
    rw [hgrows.isUse (Array.getElem?_eq_some_iff.1 hR).1] at huse
    exact absurd ((hunder huse).2 hr) (hnone n)
  · exact (h.known q' hq' j hj).trans ((Nat.lt_succ_self n).trans_eq hsentences.symm)
  · refine List.forall_mem_singleton.2 fun j hj => ?_
    obtain rfl : n = j := Option.some.inj hj
    exact (Nat.lt_succ_self n).trans_eq hsentences.symm
  · rw [h.entered q' hq']
    refine exists_congr fun j => and_congr_right fun hj => ?_
    exact (hgrows.opensUse h.shelved (h.known q' hq' j hj)).symm
  · rw [List.forall_mem_singleton]
    change p.declarativeEntry = true ↔ ∃ j ∈ some n, c'.OpensUse j
    rw [h.pending]
    constructor
    · rintro ⟨r, hr, huse, hnone⟩
      obtain ⟨R, hR, -⟩ := h.currentSection r hr
      refine ⟨n, rfl, r, ?_, (hunder huse).2 hr, fun i hi hi' => ?_⟩
      · rwa [hgrows.isUse (Array.getElem?_eq_some_iff.1 hR).1]
      · exact hnone i ((hgrows.under h.shelved hi).1 hi')
    · rintro ⟨j, hj, r, huse, hr, hnone⟩
      obtain rfl : n = j := Option.some.inj hj
      rw [hgrows.isUse (hsize ▸ (Procedures.Under.lt hshelved.shelved hr).2)] at huse
      refine ⟨r, (hunder huse).1 hr, huse, fun i hi => ?_⟩
      have hlt' := (Procedures.Under.lt h.shelved hi).1
      exact hnone i hlt' ((hgrows.under h.shelved hlt').2 hi)

/-- A plan that has been changed in its place, with the same catalog. -/
theorem congr (h : p.Headed) (hp' : p'.Shelved) (hcatalog : p'.catalog = p.catalog)
    (hpassages : ∀ q' ∈ p'.passages, (q'.sentence = none ∧ q'.entered = false) ∨
      ∃ q ∈ p.passages, q'.sentence = q.sentence ∧ q'.entered = q.entered)
    (hentry : p'.declarativeEntry = true → p'.declaratives.isSome)
    (hpending : p'.declarativeEntry = true ↔
      ∃ s ∈ p'.currentSection, p.catalog.isUse s = true ∧ ∀ j, ¬ p.catalog.Under s j) :
    p'.Headed where
  toShelved := hp'
  agrees := hcatalog ▸ h.agrees
  entry := hentry
  pending := by rw [hcatalog, hpending]
  known q' hq' j hj := by
    rw [hcatalog]
    obtain ⟨hnone, -⟩ | ⟨q, hq, hsentence, -⟩ := hpassages q' hq'
    · exact nomatch hnone.symm.trans hj
    · exact h.known q hq j (hsentence ▸ hj)
  entered q' hq' := by
    rw [hcatalog]
    obtain ⟨hnone, hentered⟩ | ⟨q, hq, hsentence, hentered⟩ := hpassages q' hq'
    · simp [hnone, hentered]
    · rw [hentered, hsentence, h.entered q hq]

theorem readSentence (h : p.Headed) (id : NodeId) (text : SentenceText) :
    (p.readSentence id text).Headed := by
  refine h.congr (h.toShelved.congr rfl rfl rfl) rfl (fun q' hq' => .inr ?_) h.entry h.pending
  obtain hq' | hq' := List.mem_append.1 hq'
  · exact ⟨q', List.mem_of_mem_dropLast hq', rfl, rfl⟩
  · obtain ⟨q, hq, rfl⟩ := Option.map_eq_some_iff.1 (Option.mem_toList.1 hq')
    exact ⟨q, List.mem_of_getLast? hq, rfl, rfl⟩

/-- The header of a section. It does not matter where the plan stood before. -/
theorem enterSection (h : p.Headed) (name : String) (span : Span) (id : NodeId) :
    (p.step (.enter (.sectionHeader name span) id)).Headed ∧
      (p.step (.enter (.sectionHeader name span) id)).Sided := by
  have hshelved := h.toShelved.enterSection name span id
  obtain ⟨R, hR, -⟩ := h.root
  set n := p.catalog.procedures.size with hn
  set S : Procedure :=
    { id := n, name, kind := .sectionProcedure, declaratives := p.declaratives.isSome, span }
  set index := p.catalog.index.insert (foldCase name) n
  set c' : Procedures := { p.catalog with procedures := p.catalog.procedures.push S, index }
  have hgrows : p.catalog.Grows c' := p.catalog.grows_push S index
  have hS : c'.procedures[n]? = some S := Array.getElem?_push_size
  have hsize : c'.procedures.size = n + 1 := Array.size_push _
  refine ⟨h.grow hshelved hgrows rfl (h.agrees.grow h.shelved hgrows
    (Nat.zero_lt_of_lt (Array.getElem?_eq_some_iff.1 hR).1) (fun hge hQ hk => ?_)
    fun hge ht => ?_) rfl (fun hentry => ?_) ?_, fun q Q hq hQ => ?_⟩
  · obtain rfl : n = _ := Nat.le_antisymm hge
      (Nat.le_of_lt_succ ((Array.getElem?_eq_some_iff.1 hQ).1.trans_eq hsize))
    obtain rfl := Option.some.inj (hS.symm.trans hQ)
    exact nomatch hk
  · exact absurd (Array.getElem?_eq_some_iff.1 ht).1 (Nat.not_lt.2 hge)
  · exact (Bool.or_eq_true_iff.1 hentry).elim h.entry fun hopen => hopen
  · change (p.declarativeEntry || p.declaratives.isSome) = true ↔
      ∃ s ∈ some n, c'.isUse s = true ∧ _
    have hnone : ∀ j, ¬ c'.Under n j := fun j hj => by
      have hlt : j < p.catalog.sentences.size := (Procedures.Under.lt hshelved.shelved hj).1
      exact (Procedures.Under.lt h.shelved ((hgrows.under h.shelved hlt).1 hj)).2.false
    constructor
    · intro hentry
      have hopen := (Bool.or_eq_true_iff.1 hentry).elim h.entry fun hopen => hopen
      exact ⟨n, rfl, Procedures.isUse_iff.2 ⟨S, hS, rfl, hopen⟩, hnone⟩
    · rintro ⟨s, hs, huse, -⟩
      obtain rfl : n = s := Option.some.inj hs
      obtain ⟨S', hS', -, hopen⟩ := Procedures.isUse_iff.1 huse
      obtain rfl := Option.some.inj (hS.symm.trans hS')
      exact Bool.or_eq_true_iff.2 (.inr hopen)
  · obtain hq | hq := hq
    · exact nomatch hq
    · obtain rfl : n = _ := Option.some.inj hq
      obtain rfl := Option.some.inj (hS.symm.trans hQ)
      rfl

theorem enterParagraph (h : p.Headed) (hsided : p.Sided) (name : String) (span : Span)
    (id : NodeId) : (p.step (.enter (.paragraphHeader name span) id)).Headed ∧
      (p.step (.enter (.paragraphHeader name span) id)).Sided := by
  obtain ⟨-, s, S, -, hs, hS, hkind, -⟩ := exists_open h.toShelved
  refine edit (P := fun p' => p'.Headed ∧ p'.Sided) (h.toShelved.enterParagraph name span id)
    (fun q c hadd hshelved => ?_) ⟨h, hsided⟩
  rw [hs] at hadd
  obtain ⟨rfl, rfl⟩ := Procedures.eq_of_addParagraph_eq_ok hadd
  set n := p.catalog.procedures.size with hn
  set Q : Procedure :=
    { id := n, name, kind := .paragraphProcedure, owner := some s
      declaratives := p.declaratives.isSome, span }
  set c' := p.catalog.withParagraph name s p.declaratives.isSome span with hc'
  have hgrows : p.catalog.Grows c' := p.catalog.grows_withParagraph _ _ _ _
  have hlt : s < n := (Array.getElem?_eq_some_iff.1 hS).1
  have hsize : c'.procedures.size = n + 1 :=
    (Procedures.size_file _ _ _).trans (Array.size_push _)
  have hQ : c'.procedures[n]? = some Q := by
    have hpush : (p.catalog.procedures.push Q)[n]? = some Q := Array.getElem?_push_size
    change ((p.catalog.procedures.push Q).modify s _)[n]? = some Q
    rw [Array.getElem?_modify, if_neg hlt.ne, hpush]
  have hmark : ∀ {r : ProcedureId} {R' : Procedure},
      r = n ∨ p.currentSection = some r → c'.procedures[r]? = some R' →
        R'.declaratives = p.declaratives.isSome := by
    rintro r R' (rfl | hr) hR'
    · obtain rfl := Option.some.inj (hQ.symm.trans hR')
      rfl
    · obtain rfl := Option.some.inj (hs.symm.trans hr)
      obtain ⟨R, hR, hd⟩ := declaratives_eq hgrows hlt hR'
      exact hd.trans (hsided _ _ (.inr hs) hR)
  refine ⟨h.grow hshelved hgrows rfl (h.agrees.grow h.shelved hgrows (Nat.zero_lt_of_lt hlt)
    (fun hge hQ' _ howner hS' => ?_) fun hge ht => ?_) rfl h.entry ?_, fun r R hr hR => ?_⟩
  · obtain rfl : n = _ := Nat.le_antisymm hge
      (Nat.le_of_lt_succ ((Array.getElem?_eq_some_iff.1 hQ').1.trans_eq hsize))
    obtain rfl := Option.some.inj (hQ.symm.trans hQ')
    obtain rfl : s = _ := Option.some.inj howner
    exact hmark (.inr hs) hS'
  · exact absurd (Array.getElem?_eq_some_iff.1 ht).1 (Nat.not_lt.2 hge)
  · change p.declarativeEntry = true ↔
      ∃ r ∈ p.currentSection, c'.isUse r = true ∧ ∀ j, ¬ c'.Under r j
    rw [h.pending]
    refine exists_congr fun r => and_congr_right fun hr => ?_
    obtain rfl : s = r := Option.some.inj (hs.symm.trans hr)
    rw [hgrows.isUse hlt]
    refine and_congr_right fun _ => forall_congr' fun j => not_congr ?_
    by_cases hj : j < p.catalog.sentences.size
    · exact (hgrows.under h.shelved hj).symm
    · exact ⟨fun hunder => absurd (Procedures.Under.lt h.shelved hunder).1 hj,
        fun hunder => absurd (Procedures.Under.lt hshelved.shelved hunder).1 hj⟩
  · exact hmark (hr.imp_left fun heq => (Option.some.inj heq).symm) hR

/-- What follows the DECLARATIVES belongs to the implicit section again. -/
theorem leaveDeclaratives (h : p.Headed) (id : NodeId) :
    (p.step (.leave .declaratives id)).Headed ∧ (p.step (.leave .declaratives id)).Sided := by
  have hshelved := h.toShelved.leaveDeclaratives id
  rw [Plan.step, Plan.edit, h.rootSection_eq_ok] at hshelved ⊢
  dsimp only at hshelved ⊢
  have hside : ∀ {p' : Plan}, p'.catalog = p.catalog → p'.currentSection = some 0 →
      p'.currentParagraph = none → p'.declaratives = none → p'.Sided := by
    intro p' hcatalog hsection hparagraph hnone q Q hq hQ
    rw [hparagraph, hsection] at hq
    obtain rfl : 0 = q := hq.elim (by simp) Option.some.inj
    rw [hcatalog] at hQ
    rw [h.agrees.root hQ, hnone]
    rfl
  have hnot : ¬ ∃ s ∈ some 0, p.catalog.isUse s = true ∧ ∀ j, ¬ p.catalog.Under s j := by
    rintro ⟨s, hs, huse, -⟩
    obtain rfl : 0 = s := Option.some.inj hs
    obtain ⟨S, hS, -, hd⟩ := Procedures.isUse_iff.1 huse
    cases hd.symm.trans (h.agrees.root hS)
  cases hp : p.declaratives with
  | none =>
    rw [hp] at hshelved
    exact ⟨h.congr hshelved rfl (fun q hq => .inr ⟨q, hq, rfl, rfl⟩) (fun hentry => by cases hentry)
      ⟨fun hd => (by cases hd), fun hexists => absurd hexists hnot⟩, hside rfl rfl rfl rfl⟩
  | some origin =>
    rw [hp] at hshelved
    refine ⟨h.congr hshelved rfl (fun q hq => ?_) (fun hentry => by cases hentry)
      ⟨fun hd => (by cases hd), fun hexists => absurd hexists hnot⟩, hside rfl rfl rfl rfl⟩
    obtain hq | hq := List.mem_append.1 hq
    · exact .inr ⟨q, hq, rfl, rfl⟩
    · obtain rfl := List.mem_singleton.1 hq
      exact .inl ⟨rfl, rfl⟩

theorem step (h : p.Headed) (hsided : p.Sided) {item : Item} (hitem : item.IsPlain) :
    (p.step item).Headed ∧ (p.step item).Sided := by
  cases item with
  | sentence id text =>
    rw [Plan.step]
    split
    · exact ⟨h.readSentence id text, hsided⟩
    · obtain ⟨hopen, hsided'⟩ := h.openSentence hsided id
      exact ⟨hopen.readSentence id text, hsided'⟩
  | enter heading id =>
    cases heading with
    | declaratives => exact hitem.elim
    | sectionHeader name span => exact h.enterSection name span id
    | paragraphHeader name span => exact h.enterParagraph hsided name span id
  | leave heading id =>
    cases heading with
    | declaratives => exact hitem.elim
    | sectionHeader name span => exact ⟨h, hsided⟩
    | paragraphHeader name span => exact ⟨h, hsided⟩

theorem read (h : p.Headed) (hsided : p.Sided) {items : List Item}
    (hitems : ∀ item ∈ items, item.IsPlain) : (p.read items).Headed ∧ (p.read items).Sided := by
  induction items generalizing p with
  | nil => exact ⟨h, hsided⟩
  | cons item rest ih =>
    obtain ⟨hitem, hrest⟩ := List.forall_mem_cons.1 hitems
    obtain ⟨h', hsided'⟩ := h.step hsided hitem
    exact ih h' hsided' hrest

theorem enterDeclaratives (h : p.Headed) (hp : p.declarativeEntry = false) (id : NodeId) :
    (p.step (.enter .declaratives id)).Headed :=
  h.congr (h.toShelved.step (.enter .declaratives id)) rfl (fun q hq => .inr ⟨q, hq, rfl, rfl⟩)
    (fun hentry => nomatch hp.symm.trans hentry) h.pending

theorem start (program : Option String) :
    (Plan.start program).Headed ∧ (Plan.start program).Sided := by
  have hshelved := Plan.Shelved.start program
  rw [Plan.start_eq] at hshelved ⊢
  have hprocedure : ∀ {p : ProcedureId} {P root : Procedure}, #[root][p]? = some P → root = P :=
    fun {p P root} hP => by
      cases p with
      | zero => exact Option.some.inj hP
      | succ p => simp at hP
  have huse : ∀ {c : Procedures} {root : Procedure} {s : ProcedureId}, c.procedures = #[root] →
      root.declaratives = false → ¬ c.isUse s = true := by
    intro c root s hc hroot hs
    obtain ⟨S, hS, -, hd⟩ := Procedures.isUse_iff.1 hs
    obtain rfl := hprocedure (hc ▸ hS)
    exact nomatch hd.symm.trans hroot
  refine
    ⟨{ toShelved := hshelved
       agrees := ⟨fun hR => ?_, fun hQ hk => ?_, fun {j t q Q} ht howner hQ => ?_⟩
       entry := nofun
       pending := ⟨nofun, fun ⟨s, _, hs, _⟩ => absurd hs (huse rfl rfl)⟩
       known := List.forall_mem_singleton.2 fun j hj => ?_
       entered := List.forall_mem_singleton.2 ⟨nofun, fun ⟨j, _, s, hs, _⟩ =>
         absurd hs (huse rfl rfl)⟩ }, fun q Q _ hQ => ?_⟩
  · obtain rfl := hprocedure hR
    rfl
  · obtain rfl := hprocedure hQ
    exact nomatch hk
  · obtain rfl := hprocedure hQ
    obtain rfl := Array.mem_singleton.1 (Array.mem_of_getElem? ht)
    rfl
  · obtain rfl : 0 = j := Option.some.inj hj
    exact Nat.zero_lt_one
  · obtain rfl := hprocedure hQ
    rfl

end Plan.Headed

/-- The sections of the DECLARATIVES are headed in the plan of a division. -/
theorem DivisionText.headed_plan (d : DivisionText) (program : Option String) (id : NodeId) :
    (d.plan program id).Headed := by
  obtain ⟨hstart, hsided⟩ := Plan.Headed.start program
  rw [plan]
  obtain ⟨-, hplain⟩ | ⟨-, name, span, inside, rest, hitems, hinside, hrest⟩ := d.exists_items id
  · exact (hstart.read hsided hplain).1
  · obtain ⟨hheader, hinside⟩ := List.forall_mem_cons.1 hinside
    obtain ⟨h₁, hsided₁⟩ := (hstart.enterDeclaratives (by rw [Plan.start_eq]) id).enterSection
      name span (id + 1)
    obtain ⟨h₂, -⟩ := h₁.read hsided₁ hinside
    obtain ⟨h₃, hsided₃⟩ := h₂.leaveDeclaratives id
    rw [hitems, Plan.read, List.foldl_append, List.foldl_append]
    exact (h₃.read hsided₃ hrest).1

end CobolFlow
