import CobolFlow.Proofs.Catalog.Uses

/-!
# The sentences of a range

A performed range runs from one procedure to another in the order of declaration, and the sentences
of its procedures follow one another without a gap. The implicit section is no part of any range,
because no name stands for it. It is the only procedure that is taken up again after others have
been declared, where DECLARATIVES are left; but there a new passage begins.

## Main definitions

* `Procedures.Rooted` — what is known of the implicit section

## Main results

* `DivisionText.rooted_plan` — true of the plan of a division
* `Procedures.Shelved.sentencesBetween` — the sentences of a range, in increasing order
* `Procedures.Shelved.exists_under_of_between` — no sentence is left out between two of a range
-/

namespace CobolFlow

namespace Procedures

/-- What is known of the implicit section: no name stands for it, it has the first sentence, and it
has none behind those of other procedures, unless these are in the DECLARATIVES. -/
structure Rooted (c : Procedures) : Prop where
  unnamed : ∀ key, 0 ∉ c.index.find key
  first : ∃ t, c.sentences[0]? = some t ∧ t.owner = some 0
  before : ∀ {i j : SentenceId} {t t' : Sentence}, c.sentences[i]? = some t →
    c.sentences[j]? = some t' → i < j → t'.owner = some 0 →
      t.owner = some 0 ∨ t.declaratives = true

variable {c c' : Procedures}

/-- Another procedure is listed under its name. -/
theorem Rooted.insert (h : c.Rooted) (hsize : 0 < c.procedures.size) {key : String}
    (hindex : c'.index = c.index.insert key c.procedures.size)
    (hsentences : c'.sentences = c.sentences) : c'.Rooted where
  unnamed other := by
    rw [hindex, NameIndex.find_insert]
    split
    · rw [List.mem_append, List.mem_singleton]
      exact not_or.2 ⟨h.unnamed _, hsize.ne⟩
    · exact h.unnamed _
  first := by rw [hsentences]; exact h.first
  before := by rw [hsentences]; exact h.before

end Procedures

/-- The implicit section keeps its place, and the sentences so far are its own or those of the
DECLARATIVES as long as these are open or the plan goes on in it. -/
structure Plan.Rooted (p : Plan) : Prop extends p.Shelved where
  rooted : p.catalog.Rooted
  early : p.declaratives.isSome ∨ p.currentParagraph = none ∧ p.currentSection = some 0 →
    ∀ {j : SentenceId} {t : Sentence}, p.catalog.sentences[j]? = some t →
      t.owner = some 0 ∨ t.declaratives = true

namespace Plan.Rooted

variable {p p' : Plan}

theorem congr (h : p.Rooted) (hp' : p'.Shelved) (hcatalog : p'.catalog = p.catalog)
    (hearly : p'.declaratives.isSome ∨ p'.currentParagraph = none ∧ p'.currentSection = some 0 →
      p.declaratives.isSome ∨ p.currentParagraph = none ∧ p.currentSection = some 0) :
    p'.Rooted :=
  ⟨hp', hcatalog ▸ h.rooted, by rw [hcatalog]; exact fun h' => h.early (hearly h')⟩

/-- A plan that goes on in the implicit section is in no paragraph. -/
theorem eq_of_owner_root (h : p.Shelved) (hq : p.currentParagraph.or p.currentSection = some 0) :
    p.currentParagraph = none ∧ p.currentSection = some 0 := by
  cases hparagraph : p.currentParagraph with
  | none =>
    rw [hparagraph] at hq
    exact ⟨rfl, hq⟩
  | some q =>
    rw [hparagraph] at hq
    obtain rfl : q = 0 := Option.some.inj hq
    obtain ⟨-, s, S, -, hS, hlast⟩ := h.within 0 hparagraph
    obtain ⟨Q, hQ, hkind, -⟩ := h.shelved.owns hS _ (List.mem_of_getLast? hlast)
    obtain ⟨_, -, -, hlt, -⟩ := h.shelved.paragraph hQ hkind
    exact absurd hlt (Nat.not_lt_zero _)

theorem openSentence (h : p.Rooted) (id : NodeId) : (p.openSentence id).Rooted := by
  refine Headed.edit (h.toShelved.openSentence id) (fun j c hadd hshelved => ?_) h
  obtain ⟨q, hq, -⟩ := h.exists_owner
  rw [hq] at hadd
  obtain ⟨rfl, hlt, rfl⟩ := Procedures.eq_of_addSentence_eq_ok hadd
  have hnew : ∀ {j : SentenceId} {t : Sentence},
      (p.catalog.withSentence q p.declaratives.isSome).sentences[j]? = some t →
        (j = p.catalog.sentences.size ∧ t.owner = some q ∧
          t.declaratives = p.declaratives.isSome) ∨ p.catalog.sentences[j]? = some t := by
    intro j t ht
    change (p.catalog.sentences.push _)[j]? = some t at ht
    rw [Array.getElem?_push] at ht
    split at ht
    next heq =>
      obtain rfl := Option.some.inj ht
      exact .inl ⟨heq, rfl, rfl⟩
    next => exact .inr ht
  refine ⟨hshelved, ⟨h.rooted.unnamed, ?_, fun {i j t t'} ht ht' hij howner => ?_⟩,
    fun hearly j t ht => ?_⟩
  · obtain ⟨t, ht, howner⟩ := h.rooted.first
    exact ⟨t, Procedures.KeepsSentences.of_push rfl 0 t ht, howner⟩
  · obtain ⟨rfl, howner', -⟩ | hold' := hnew ht'
    · obtain ⟨rfl, -⟩ | hold := hnew ht
      · exact absurd hij (lt_irrefl _)
      · obtain rfl : q = 0 := Option.some.inj (howner'.symm.trans howner)
        exact h.early (.inr (eq_of_owner_root h.toShelved hq)) hold
    · obtain ⟨rfl, -⟩ | hold := hnew ht
      · exact absurd hij (Array.getElem?_eq_some_iff.1 hold').1.asymm
      · exact h.rooted.before hold hold' hij howner
  · obtain ⟨-, howner, hdeclared⟩ | hold := hnew ht
    · obtain hopen | ⟨hparagraph, hsection⟩ := hearly
      · exact .inr (hdeclared.trans hopen)
      · have hparagraph : p.currentParagraph = none := hparagraph
        have hsection : p.currentSection = some 0 := hsection
        rw [hparagraph, hsection] at hq
        exact .inl (howner.trans hq.symm)
    · exact h.early hearly hold

theorem enterSection (h : p.Rooted) (name : String) (span : Span) (id : NodeId) :
    (p.step (.enter (.sectionHeader name span) id)).Rooted := by
  have hshelved := h.toShelved.enterSection name span id
  rw [Plan.step] at hshelved ⊢
  refine Headed.edit hshelved (fun q c hadd hshelved => ?_) h
  obtain ⟨rfl, rfl⟩ := Prod.mk.inj (Except.ok.inj hadd)
  obtain ⟨R, hR, -⟩ := h.root
  have hsize := Nat.zero_lt_of_lt (Array.getElem?_eq_some_iff.1 hR).1
  refine ⟨hshelved, h.rooted.insert hsize rfl rfl, fun hearly => h.early ?_⟩
  exact hearly.imp_right fun hroot => absurd (Option.some.inj hroot.2) hsize.ne'

theorem enterParagraph (h : p.Rooted) (name : String) (span : Span) (id : NodeId) :
    (p.step (.enter (.paragraphHeader name span) id)).Rooted := by
  refine Headed.edit (h.toShelved.enterParagraph name span id) (fun q c hadd hshelved => ?_) h
  obtain ⟨s, hs⟩ := Option.isSome_iff_exists.1 h.isOpen
  rw [hs] at hadd
  obtain ⟨rfl, rfl⟩ := Procedures.eq_of_addParagraph_eq_ok hadd
  obtain ⟨R, hR, -⟩ := h.root
  have hsize := Nat.zero_lt_of_lt (Array.getElem?_eq_some_iff.1 hR).1
  refine ⟨hshelved, h.rooted.insert hsize rfl rfl, fun hearly => h.early ?_⟩
  exact hearly.imp_right fun ⟨hparagraph, _⟩ => nomatch hparagraph

/-- Where DECLARATIVES are left, everything so far stands before or in them. -/
theorem leaveDeclaratives (h : p.Rooted) (hopen : p.declaratives.isSome) (id : NodeId) :
    (p.step (.leave .declaratives id)).Rooted := by
  have hshelved := h.toShelved.leaveDeclaratives id
  rw [Plan.step, Plan.edit, h.rootSection_eq_ok] at hshelved ⊢
  dsimp only at hshelved ⊢
  refine h.congr hshelved ?_ fun _ => .inl hopen
  split <;> rfl

theorem step (h : p.Rooted) {item : Item} (hitem : item.IsPlain) : (p.step item).Rooted := by
  have hread : ∀ {p : Plan}, p.Rooted → ∀ id text, (p.readSentence id text).Rooted :=
    fun h id text => h.congr (h.toShelved.congr rfl rfl rfl) rfl fun hearly => hearly
  cases item with
  | sentence id text =>
    rw [Plan.step]
    split
    · exact hread h id text
    · exact hread (h.openSentence id) id text
  | enter heading id =>
    cases heading with
    | declaratives => exact hitem.elim
    | sectionHeader name span => exact h.enterSection name span id
    | paragraphHeader name span => exact h.enterParagraph name span id
  | leave heading id =>
    cases heading with
    | declaratives => exact hitem.elim
    | sectionHeader name span => exact h
    | paragraphHeader name span => exact h

theorem read (h : p.Rooted) {items : List Item} (hitems : ∀ item ∈ items, item.IsPlain) :
    (p.read items).Rooted := by
  induction items generalizing p with
  | nil => exact h
  | cons item rest ih =>
    obtain ⟨hitem, hrest⟩ := List.forall_mem_cons.1 hitems
    exact ih (h.step hitem) hrest

theorem start (program : Option String) : (Plan.start program).Rooted := by
  have hshelved := Plan.Shelved.start program
  rw [Plan.start_eq] at hshelved ⊢
  refine ⟨hshelved, ⟨by simp [NameIndex.find], ⟨_, rfl, rfl⟩, fun {i j t t'} ht ht' hij => ?_⟩,
    fun _ j t ht => ?_⟩
  · have hj : j < 1 := (Array.getElem?_eq_some_iff.1 ht').1
    obtain rfl := Nat.lt_one_iff.1 hj
    exact absurd hij (Nat.not_lt_zero _)
  · obtain rfl := Array.mem_singleton.1 (Array.mem_of_getElem? ht)
    exact .inl rfl

end Plan.Rooted

theorem DivisionText.rooted_plan (d : DivisionText) (program : Option String) (id : NodeId) :
    (d.plan program id).Rooted := by
  have hstart := Plan.Rooted.start program
  rw [plan]
  obtain ⟨-, hplain⟩ | ⟨-, name, span, inside, rest, hitems, hinside, hrest⟩ := d.exists_items id
  · exact hstart.read hplain
  · have hentered : ((Plan.start program).step (.enter .declaratives id)).Rooted :=
      hstart.congr (hstart.toShelved.step _) rfl fun _ =>
        .inr (by rw [Plan.start_eq]; exact ⟨rfl, rfl⟩)
    have hread := hentered.read hinside
    have hopen : (((Plan.start program).step (.enter .declaratives id)).read
        (.enter (.sectionHeader name span) (id + 1) :: inside)).declaratives.isSome := by
      rw [Plan.declaratives_read _ hinside, Plan.start_eq]
      rfl
    rw [hitems, Plan.read, List.foldl_append, List.foldl_append]
    exact (hread.leaveDeclaratives hopen id).read hrest

/-! ### The sentences of a range -/

namespace Procedures

variable {c : Procedures} {first last p p' : ℕ} {i j k : SentenceId}

/-- The name of a procedure stands for another than the implicit section. -/
theorem Rooted.find?_ne_zero (h : c.Rooted) (hc : Sound c) {n : QualifiedName}
    (hn : c.find? n = some p) : p ≠ 0 := by
  rintro rfl
  exact h.unnamed _ (mem_of_find? hc hn)

/-- The procedure is a paragraph of the other. -/
def IsWithin (c : Procedures) (q p : ProcedureId) : Prop :=
  ∃ Q, c.procedures[q]? = some Q ∧ Q.kind = .paragraphProcedure ∧ Q.owner = some p

namespace Shelved

variable (h : c.Shelved)
include h

theorem lt_of_isWithin {q : ProcedureId} (hq : c.IsWithin q p) : p < q := by
  obtain ⟨Q, hQ, hkind, howner⟩ := hq
  obtain ⟨_, -, howner', hlt, -⟩ := h.paragraph hQ hkind
  exact Option.some.inj (howner'.symm.trans howner) ▸ hlt

/-- What stands between a section and one of its paragraphs are paragraphs of the section. -/
theorem isWithin_of_le {q r : ProcedureId} (hq : c.IsWithin q p) (hp : p ≠ 0) (hpr : p < r)
    (hrq : r ≤ q) : c.IsWithin r p := by
  obtain rfl | hlt := hrq.eq_or_lt
  · exact hq
  · obtain ⟨Q, hQ, hkind, howner⟩ := hq
    exact h.contiguous hQ hkind p howner hp r hpr hlt

/-- Of two procedures, neither of which is in the other, the later one has the later sentences. -/
theorem lt_of_under (hp : p ≠ 0) (hlt : p < p') (hnot : ¬ c.IsWithin p' p) (hi : c.Under p i)
    (hj : c.Under p' j) : i < j := by
  obtain ⟨t, ht, q, hq, hfiled⟩ := hi
  obtain ⟨t', ht', q', hq', hfiled'⟩ := hj
  have hqp : q < p' := by
    obtain rfl | hfiled := hfiled
    · exact hlt
    · exact not_le.1 fun hle => hnot (h.isWithin_of_le hfiled hp hlt hle)
  have hpq : p ≤ q := hfiled.elim (fun heq => heq.ge) fun hfiled => (h.lt_of_isWithin hfiled).le
  have hpq' : p' ≤ q' := hfiled'.elim (fun heq => heq.ge) fun hfiled => (h.lt_of_isWithin hfiled).le
  obtain hij | rfl | hji := lt_trichotomy i j
  · exact hij
  · obtain rfl := Option.some.inj (ht.symm.trans ht')
    obtain rfl := Option.some.inj (hq.symm.trans hq')
    exact absurd (hqp.trans_le hpq') (lt_irrefl _)
  · obtain hle | rfl := h.rising ht' ht hji q' hq' q hq
    · exact absurd (hqp.trans_le (hpq'.trans hle)) (lt_irrefl _)
    · exact absurd (Nat.le_zero.1 hpq) hp

/-- The sentences of the procedures of a range are those of all from its first to its last. -/
theorem exists_mem_proceduresBetween_iff :
    (∃ p ∈ Build.proceduresBetween c first last, c.Under p j) ↔
    ∃ p, first ≤ p ∧ p ≤ last ∧ c.Under p j := by
  have hrange : ∀ p, p ∈ List.range' first (last + 1 - first) ↔ first ≤ p ∧ p ≤ last := fun p => by
    rw [List.mem_range'_1]
    omega
  constructor
  · rintro ⟨p, hp, hj⟩
    obtain ⟨hle, hle'⟩ := (hrange p).1 (List.mem_filter.1 hp).1
    exact ⟨p, hle, hle', hj⟩
  · rintro ⟨p, hle, hle', hj⟩
    obtain ⟨P, hP⟩ : ∃ P, c.procedures[p]? = some P :=
      ⟨_, Array.getElem?_eq_getElem (Under.lt h hj).2⟩
    by_cases hkept : p ∈ Build.proceduresBetween c first last
    · exact ⟨p, hkept, hj⟩
    -- A paragraph is left out if its section is in the range, which has the sentence as well.
    · rw [Build.proceduresBetween, List.mem_filter, and_iff_right ((hrange p).2 ⟨hle, hle'⟩),
        hP] at hkept
      simp only [Bool.or_eq_true, bne_iff_ne, ne_eq, Bool.not_eq_true', not_or, not_not,
        Bool.not_eq_false, Option.any_eq_true, Bool.and_eq_true, decide_eq_true_eq] at hkept
      obtain ⟨hkind, s, hs, hle, hle'⟩ := hkept
      obtain ⟨s', S, hs', -, hS, hsection, -⟩ := h.paragraph hP hkind
      obtain rfl := Option.some.inj (hs.symm.trans hs')
      refine ⟨s, List.mem_filter.2 ⟨(hrange s).2 ⟨hle, hle'⟩, by simp [hS, hsection]⟩, ?_⟩
      obtain ⟨t, ht, q, hq, rfl | ⟨Q, hQ, hkind', howner⟩⟩ := hj
      · exact ⟨t, ht, q, hq, .inr ⟨P, hP, hkind, hs⟩⟩
      · obtain ⟨p', P', howner', -, hP', hsection', -⟩ := h.paragraph hQ hkind'
        obtain rfl := Option.some.inj (howner.symm.trans howner')
        obtain rfl := Option.some.inj (hP.symm.trans hP')
        exact nomatch hkind.symm.trans hsection'

/-- A range has the sentences of all procedures from its first to its last. -/
theorem sentencesBetween (hfirst : first ≠ 0) {found : List (List SentenceId)}
    (hfound : (Build.proceduresBetween c first last).mapM c.sentencesOf = .ok found) :
    found.flatten.Pairwise (· < ·) ∧
      ∀ j, j ∈ found.flatten ↔ ∃ p, first ≤ p ∧ p ≤ last ∧ c.Under p j := by
  have heach := forall₂_of_mapM_eq_ok hfound
  refine ⟨?_, fun j => ?_⟩
  · have hsorted : (Build.proceduresBetween c first last).Pairwise (· < ·) :=
      (List.pairwise_lt_range').filter _
    refine pairwise_flatten_of_forall₂ (R := fun p j =>
        p ∈ Build.proceduresBetween c first last ∧ c.Under p j)
      (heach.imp fun p m ⟨hp, hm⟩ => ⟨h.pairwise_sentencesOf hm, fun j hj =>
        ⟨hp, (h.mem_sentencesOf hm).1 hj⟩⟩)
      (hsorted.imp fun {p p'} hlt i j hi hj => h.lt_of_under ?_ hlt ?_ hi.2 hj.2)
    · have := (List.mem_range'_1.1 (List.mem_filter.1 hi.1).1).1
      exact fun heq => hfirst (Nat.le_zero.1 (heq ▸ this))
    · rintro ⟨Q, hQ, hkind, howner⟩
      exact Filed.not_mem_of_owner hj.1 hi.1 hQ hkind howner
  · rw [← h.exists_mem_proceduresBetween_iff, List.mem_flatten]
    constructor
    · rintro ⟨m, hm, hj⟩
      obtain ⟨p, -, hp, hpm⟩ := exists_of_forall₂_of_mem heach hm
      exact ⟨p, hp, (h.mem_sentencesOf hpm).1 hj⟩
    · rintro ⟨p, hp, hj⟩
      obtain ⟨m, hm, -, hpm⟩ := exists_of_forall₂_of_mem heach.flip hp
      exact ⟨m, hm, (h.mem_sentencesOf hpm).2 hj⟩

/-- No sentence is left out between two of a range, but for those of the implicit section. -/
theorem exists_under_of_between (hfirst : first ≠ 0)
    (hi : ∃ p, first ≤ p ∧ p ≤ last ∧ c.Under p i) (hk : ∃ p, first ≤ p ∧ p ≤ last ∧ c.Under p k)
    (hij : i < j) (hjk : j < k) {t : Sentence} (ht : c.sentences[j]? = some t)
    (howner : t.owner ≠ some 0) : ∃ p, first ≤ p ∧ p ≤ last ∧ c.Under p j := by
  obtain ⟨p, hle, -, ti, hti, q, hq, hfiled⟩ := hi
  obtain ⟨p', hle', hlast, tk, htk, q', hq', hfiled'⟩ := hk
  obtain ⟨r, R, hr, hR, -⟩ := h.sentence ht
  have hr0 : r ≠ 0 := fun heq => howner (heq ▸ hr)
  have hpq : p ≤ q := hfiled.elim (fun heq => heq.ge) fun hfiled => (h.lt_of_isWithin hfiled).le
  have hpq' : p' ≤ q' := hfiled'.elim (fun heq => heq.ge) fun hfiled => (h.lt_of_isWithin hfiled).le
  have hqr : q ≤ r := (h.rising hti ht hij q hq r hr).resolve_right hr0
  have hrq' : r ≤ q' := by
    refine (h.rising ht htk hjk r hr q' hq').resolve_right fun heq => hfirst ?_
    exact Nat.le_zero.1 (hle'.trans (hpq'.trans heq.le))
  by_cases hr' : r ≤ last
  · exact ⟨r, hle.trans (hpq.trans hqr), hr', t, ht, r, hr, .inl rfl⟩
  -- Behind the last procedure stand only paragraphs of the section that it is or belongs to.
  · have hlt : p' < r := hlast.trans_lt (not_le.1 hr')
    obtain rfl | hfiled' := hfiled'
    · exact absurd (hlt.trans_le hrq') (lt_irrefl _)
    · have hp' : p' ≠ 0 := fun heq => hfirst (Nat.le_zero.1 (heq ▸ hle'))
      exact ⟨p', hle', hlast, t, ht, r, hr, .inr (h.isWithin_of_le hfiled' hp' hlt hrq')⟩

end Shelved

end Procedures

end CobolFlow
