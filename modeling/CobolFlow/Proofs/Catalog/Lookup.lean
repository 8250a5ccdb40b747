import CobolFlow.Proofs.Catalog.Order

/-!
# What a reference stands for

Looking a reference up goes through an index of folded names, which is kept as procedures are
added, and then through the qualifiers, each of which is used up by the first name that bears it.
Both come to the same as reading through the procedures one by one: a reference may stand for those
that bear its name and whose enclosing names, innermost first, the qualifiers run through in their
order. Taking the first name that fits is no loss, because whatever stands further out is still
there for the next qualifier.

All that a look-up knows of a procedure is its name and its owner, so that is all that is said of
what an entry does to the catalog: it adds at most one name with its owner, and lists it in the
index unless it is that of the implicit section. That section is known by its name, which no
program can write; where no entry takes that name, it is the one procedure that has not been
added under one.

## Main definitions

* `Procedures.Entry`, `Procedures.makeAll` — the entries that can be made in a catalog
* `Procedures.Bears` — whether a procedure is one that a reference may stand for

## Main results

* `Procedures.Entry.cases_of_make`, `Procedures.makeAll_induction` — what entries do
* `Procedures.isRoot_iff_notMem` — the implicit section is the one procedure not added under a name
* `Procedures.resolve_scans` — a reference stands for what a scan of the procedures finds
-/

namespace CobolFlow

namespace Procedures

/-- The qualifiers that a list of names leaves over are none if they run through it in their
order, whatever case they are written in. -/
theorem unmatched_eq_nil_iff {qualifiers names : List String} : unmatched qualifiers names = [] ↔
    (qualifiers.map foldCase).Sublist (names.map foldCase) := by
  induction names generalizing qualifiers with
  | nil => simp [unmatched]
  | cons name outer ih =>
    cases qualifiers with
    | nil => simp
    | cons q rest =>
      simp only [unmatched, List.map_cons, beq_iff_eq]
      by_cases hq : foldCase q = foldCase name
      · rw [if_pos hq, ih, hq, List.cons_sublist_cons]
      · rw [if_neg hq, ih, List.map_cons, List.sublist_cons_iff, or_iff_left]
        rintro ⟨r, heq, -⟩
        exact hq (List.cons.inj heq).1

/-! ### Reading through the procedures -/

/-- The names that enclose a procedure, innermost first: that of the section it belongs to, unless
this is the implicit one, and that of the program. -/
def enclosing (c : Procedures) (P : Procedure) : List String :=
  ((P.owner.bind (c.procedures[·]?)).toList.map (·.name)).filter (· != rootSectionName) ++
    c.program.toList

/-- A reference may stand for a procedure: it has its name, and its qualifiers run through the names
that enclose it, all without regard to case. -/
def Bears (c : Procedures) (n : QualifiedName) (p : ProcedureId) : Prop :=
  ∃ P ∈ c.procedures[p]?, foldCase P.name = foldCase n.name ∧
    (n.qualifiers.map foldCase).Sublist ((c.enclosing P).map foldCase)

instance (c : Procedures) (n : QualifiedName) : DecidablePred (c.Bears n) := fun p =>
  inferInstanceAs (Decidable (∃ P ∈ c.procedures[p]?, foldCase P.name = foldCase n.name ∧
    (n.qualifiers.map foldCase).Sublist ((c.enclosing P).map foldCase)))

/-- The outcome of a look-up says how many procedures the reference may stand for, and which if
there is one. -/
structure Resolves (c : Procedures) (n : QualifiedName) (candidates : List ProcedureId) :
    Prop where
  absent : candidates = [] → c.resolve n = .ok .absent
  unique : ∀ p, candidates = [p] → c.resolve n = .ok (.unique p)
  ambiguous : 2 ≤ candidates.length → c.resolve n = .ok (.ambiguous candidates.length)

theorem Resolves.of_ofMatches {c : Procedures} {n : QualifiedName} {candidates : List ProcedureId}
    (h : c.resolve n = .ok (.ofMatches candidates)) : c.Resolves n candidates := by
  match candidates, h with
  | [], h => exact ⟨fun _ => h, by simp, by simp⟩
  | [p], h => exact ⟨by simp, fun q hq => List.singleton_inj.1 hq ▸ h, by simp⟩
  | _ :: _ :: _, h => exact ⟨by simp, by simp, fun _ => h⟩

/-! ### Entries -/

/-- An entry in a catalog. -/
inductive Entry
  | rootSection
  | newSection (name : String) (declaratives : Bool) (span : Span)
  | newParagraph (name : String) (owner : Option ProcedureId) (declaratives : Bool) (span : Span)
  | newSentence (owner : Option ProcedureId) (declaratives : Bool)

/-- Makes an entry, and answers with the number of the procedure or sentence. -/
def Entry.make : Entry → Edit Nat
  | .rootSection => Procedures.rootSection
  | .newSection name declaratives span => addSection name declaratives span
  | .newParagraph name owner declaratives span => addParagraph name owner declaratives span
  | .newSentence owner declaratives => addSentence owner declaratives

/-- The name under which the entry adds a procedure, if it adds one. -/
def Entry.name? : Entry → Option String
  | .newSection name .. | .newParagraph name .. => some name
  | .rootSection | .newSentence .. => none

/-- Makes some entries one after another, and answers with the procedures that they have added under
a name. -/
def makeAll (entries : List Entry) : Edit (List ProcedureId) :=
  entries.foldlM (fun added e => do
    let p ← e.make
    return if e.name?.isSome then added ++ [p] else added) []

/-- The name and the owner of each procedure. -/
def headings (c : Procedures) : List (String × Option ProcedureId) :=
  c.procedures.toList.map fun P => (P.name, P.owner)

variable {c c' : Procedures} {added : List ProcedureId} {p : ℕ}

theorem length_headings (c : Procedures) : c.headings.length = c.procedures.size := by
  simp [headings]

theorem getElem?_headings (c : Procedures) (p : ProcedureId) :
    c.headings[p]? = c.procedures[p]?.map fun P => (P.name, P.owner) := by
  simp [headings]

theorem headings_push (c : Procedures) (P : Procedure) (index : NameIndex) :
    headings { c with procedures := c.procedures.push P, index } =
      c.headings ++ [(P.name, P.owner)] := by
  simp [headings]

theorem headings_file (c : Procedures) (p : ProcedureId) (part : Part) :
    (c.file p part).headings = c.headings := by
  refine List.ext_getElem? fun q => ?_
  rw [getElem?_headings, getElem?_file, getElem?_headings, Option.map_map]
  rfl

/-- The implicit section is there, or is made. -/
theorem headings_rootSection (h : Procedures.rootSection c = .ok (p, c')) :
    c'.program = c.program ∧ c'.index = c.index ∧ ∃ made, c'.headings = c.headings ++ made ∧
      ∀ H ∈ made, H = (rootSectionName, none) := by
  rw [Procedures.rootSection, run_bind (a := c) (t := c) rfl] at h
  cases hroot : c.procedures[0]? with
  | some root =>
    rw [hroot] at h
    obtain ⟨-, rfl⟩ := Prod.mk.inj (Except.ok.inj h)
    exact ⟨rfl, rfl, [], by simp, by simp⟩
  | none =>
    rw [hroot] at h
    obtain ⟨-, rfl⟩ := Prod.mk.inj (Except.ok.inj h)
    exact ⟨rfl, rfl, [_], headings_push .., by simp⟩

/-- Filing a part under its owner, if it has one, changes no names. -/
theorem headings_addPart {owner : Option ProcedureId} {part : Part} {a : ℕ} {rest : Edit ℕ}
    (h : (do
      if let some s := owner then
        addPart s part
      rest : Edit ℕ) c = .ok (a, c')) :
    ∃ c₁, rest c₁ = .ok (a, c') ∧ c₁.program = c.program ∧ c₁.index = c.index ∧
      c₁.headings = c.headings ∧ ∀ s ∈ owner, s < c.headings.length := by
  cases owner with
  | none => exact ⟨c, h, rfl, rfl, rfl, by simp⟩
  | some s =>
    obtain ⟨⟨⟩, c₁, hpart, hrest⟩ := exists_of_run_bind_eq_ok h
    obtain ⟨hs, rfl⟩ := eq_of_addPart_eq_ok hpart
    exact ⟨_, hrest, rfl, rfl, headings_file .., by simpa [length_headings] using hs⟩

/-- What an entry does: it leaves the names and the index alone, but for the name of the implicit
section; or it adds one name with its owner, and lists it. -/
theorem Entry.cases_of_make {e : Entry} (h : e.make c = .ok (p, c')) : c'.program = c.program ∧
    ((e.name? = none ∧ c'.index = c.index ∧ ∃ made, c'.headings = c.headings ++ made ∧
        ∀ H ∈ made, H = (rootSectionName, none)) ∨
      p = c.headings.length ∧ ∃ name owner, e.name? = some name ∧
        c'.headings = c.headings ++ [(name, owner)] ∧ (∀ s ∈ owner, s ≤ c.headings.length) ∧
        c'.index = c.index.insert (foldCase name) p) := by
  cases e with
  | rootSection =>
    obtain ⟨hprogram, hindex, hmade⟩ := headings_rootSection h
    exact ⟨hprogram, .inl ⟨rfl, hindex, hmade⟩⟩
  | newSection name declaratives span =>
    rw [make, addSection, run_bind (a := c.procedures.size) (t := { c with procedures := _ }) rfl,
      run_bind (a := ()) (t := { c with procedures := _, index := _ }) rfl] at h
    obtain ⟨rfl, rfl⟩ := Prod.mk.inj (Except.ok.inj h)
    exact ⟨rfl, .inr ⟨(length_headings c).symm, name, none, rfl, headings_push .., by simp, rfl⟩⟩
  | newParagraph name owner declaratives span =>
    rw [make, addParagraph, run_bind (a := c.procedures.size) (t := { c with procedures := _ }) rfl]
      at h
    obtain ⟨c₁, hrest, hprogram, hindex, hheadings, howner⟩ := headings_addPart h
    rw [run_bind (a := ()) (t := { c₁ with index := _ }) rfl] at hrest
    obtain ⟨rfl, rfl⟩ := Prod.mk.inj (Except.ok.inj hrest)
    rw [headings_push] at hheadings howner
    refine ⟨hprogram, .inr ⟨(length_headings c).symm, name, owner, rfl, hheadings,
      fun s hs => ?_, ?_⟩⟩
    · simpa [Nat.lt_succ_iff] using howner s hs
    · rw [← hindex]
  | newSentence owner declaratives =>
    rw [make, addSentence, run_bind (a := c.sentences.size) (t := { c with sentences := _ })
      rfl] at h
    obtain ⟨c₁, hrest, hprogram, hindex, hheadings, -⟩ := headings_addPart h
    obtain ⟨-, rfl⟩ := Prod.mk.inj (Except.ok.inj hrest)
    refine ⟨hprogram, .inl ⟨rfl, hindex, [], ?_, by simp⟩⟩
    rw [hheadings, List.append_nil]
    rfl

/-! ### The index -/

/-- The index lists the procedures that have been added under a name, and finds each under its own.
They have been added in the order of their numbers, and every owner is declared. -/
structure Indexed (c : Procedures) (added : List ProcedureId) : Prop where
  owner_lt : ∀ H ∈ c.headings, ∀ s ∈ H.2, s < c.headings.length
  lt : ∀ p ∈ added, p < c.headings.length
  rising : added.Pairwise (· < ·)
  find_eq : ∀ key, c.index.find key =
    added.filter fun p => c.headings[p]?.any fun H => foldCase H.1 == key
  /-- What has not been added under a name is the implicit section. -/
  implicit : ∀ p < c.headings.length, p ∉ added → c.headings[p]? = some (rootSectionName, none)

theorem indexed_empty (program : Option String) : Indexed { program } [] where
  owner_lt := by simp [headings]
  lt := by simp
  rising := .nil
  find_eq key := by simp [NameIndex.find]
  implicit := by simp [headings]

/-- More names at the end change nothing for the procedures that are listed. -/
theorem Indexed.filter_headings (h : c.Indexed added) {made : List (String × Option ProcedureId)}
    (hmade : c'.headings = c.headings ++ made) (key : String) :
    (added.filter fun p => c'.headings[p]?.any fun H => foldCase H.1 == key) =
      added.filter fun p => c.headings[p]?.any fun H => foldCase H.1 == key := by
  refine List.filter_congr fun p hp => ?_
  rw [hmade, List.getElem?_append_left (h.lt p hp)]

/-- An entry keeps the index right. -/
theorem Indexed.make (h : c.Indexed added) {e : Entry} (hmake : e.make c = .ok (p, c')) :
    c'.Indexed (if e.name?.isSome then added ++ [p] else added) := by
  obtain ⟨-, ⟨hname, hindex, made, hmade, hroot⟩ |
    ⟨rfl, name, owner, hname, hmade, howner, hindex⟩⟩ := Entry.cases_of_make hmake
  · rw [hname, if_neg (by simp)]
    have hlength : c.headings.length ≤ c'.headings.length := by simp [hmade]
    refine ⟨fun H hH s hs => ?_, fun p hp => (h.lt p hp).trans_le hlength, h.rising,
      fun key => ?_, fun q hq hnot => ?_⟩
    · rw [hmade] at hH
      obtain hH | hH := List.mem_append.1 hH
      · exact (h.owner_lt H hH s hs).trans_le hlength
      · simp [hroot H hH] at hs
    · rw [hindex, h.find_eq, h.filter_headings hmade]
    · obtain hlt | hge := Nat.lt_or_ge q c.headings.length
      · rw [hmade, List.getElem?_append_left hlt, h.implicit q hlt hnot]
      · obtain ⟨H, hH⟩ : ∃ H, c'.headings[q]? = some H := ⟨_, List.getElem?_eq_getElem hq⟩
        have hmem : H ∈ made := by
          rw [hmade, List.getElem?_append_right hge] at hH
          exact List.mem_of_getElem? hH
        rw [hH, hroot H hmem]
  · rw [hname, if_pos Option.isSome_some]
    have hlength : c'.headings.length = c.headings.length + 1 := by simp [hmade]
    refine ⟨fun H hH s hs => ?_, fun p hp => ?_, ?_, fun key => ?_, fun q hq hnot => ?_⟩
    · rw [hlength]
      rw [hmade] at hH
      obtain hH | hH := List.mem_append.1 hH
      · exact Nat.lt_succ_of_lt (h.owner_lt H hH s hs)
      · obtain rfl := List.mem_singleton.1 hH
        exact Nat.lt_succ_of_le (howner s hs)
    · rw [hlength]
      obtain hp | hp := List.mem_append.1 hp
      · exact Nat.lt_succ_of_lt (h.lt p hp)
      · exact List.mem_singleton.1 hp ▸ Nat.lt_succ_self _
    · refine List.pairwise_append.2 ⟨h.rising, List.pairwise_singleton .., fun p hp q hq => ?_⟩
      rw [List.mem_singleton.1 hq]
      exact h.lt p hp
    · have hlast : c'.headings[c.headings.length]? = some (name, owner) := by simp [hmade]
      rw [hindex, NameIndex.find_insert, List.filter_append, h.filter_headings hmade, ← h.find_eq]
      by_cases hkey : key = foldCase name
      · simp [hlast, hkey]
      · simp [hlast, hkey, Ne.symm hkey]
    · have hne : q ≠ c.headings.length := fun heq => hnot (by simp [heq])
      have hlt : q < c.headings.length := by omega
      rw [hmade, List.getElem?_append_left hlt, h.implicit q hlt fun hmem => hnot (by simp [hmem])]

/-- What holds of an empty catalog and is kept by every entry holds of a catalog that is made. -/
theorem makeAll_induction {P : List ProcedureId → Procedures → Prop} {program : Option String}
    {entries : List Entry} (hempty : P [] { program })
    (hmake : ∀ e ∈ entries, ∀ added c p c', P added c → e.make c = .ok (p, c') →
      P (if e.name?.isSome then added ++ [p] else added) c')
    (h : makeAll entries { program } = .ok (added, c)) : P added c := by
  refine Ensures.foldlM (P := P) hempty (fun e he added c hc => ?_) added c h
  exact .bind (P := fun p c' => P (if e.name?.isSome then added ++ [p] else added) c')
    (fun p c' hrun => hmake e he added c p c' hc hrun) fun _ _ hc' => .pure hc'

theorem indexed_makeAll {program : Option String} {entries : List Entry}
    (h : makeAll entries { program } = .ok (added, c)) : c.Indexed added :=
  makeAll_induction (P := fun added c => c.Indexed added) (indexed_empty program)
    (fun _ _ _ _ _ _ hc hmake => hc.make hmake) h

/-- As long as no entry takes the name of the implicit section, no procedure that is added under a
name has it. -/
theorem Indexed.ne_rootSectionName (h : c.Indexed added)
    (hadded : ∀ q ∈ added, ∀ H ∈ c.headings[q]?, H.1 ≠ rootSectionName) {e : Entry}
    (he : e.name? ≠ some rootSectionName) (hmake : e.make c = .ok (p, c')) :
    ∀ q ∈ if e.name?.isSome then added ++ [p] else added, ∀ H ∈ c'.headings[q]?,
      H.1 ≠ rootSectionName := by
  have hold {made} (hmade : c'.headings = c.headings ++ made) (q) (hq : q ∈ added) :
      ∀ H ∈ c'.headings[q]?, H.1 ≠ rootSectionName := by
    rw [hmade, List.getElem?_append_left (h.lt q hq)]
    exact hadded q hq
  obtain ⟨-, ⟨hname, -, made, hmade, -⟩ | ⟨rfl, name, owner, hname, hmade, -, -⟩⟩ :=
    Entry.cases_of_make hmake
  · rw [hname, if_neg (by simp)]
    exact hold hmade
  · rw [hname, if_pos Option.isSome_some]
    intro q hq
    obtain hq | hq := List.mem_append.1 hq
    · exact hold hmade q hq
    · rw [List.mem_singleton.1 hq, hmade, List.getElem?_concat_length]
      rintro H ⟨rfl⟩
      exact fun hroot => he (hname.trans (congrArg some hroot))

/-- As long as no entry takes its name, the implicit section is the one procedure that is not added
under a name. -/
theorem isRoot_iff_notMem {program : Option String} {entries : List Entry}
    (h : makeAll entries { program } = .ok (added, c))
    (hnames : ∀ e ∈ entries, e.name? ≠ some rootSectionName) (hp : p < c.procedures.size) :
    c.isRoot p = .ok true ↔ p ∉ added := by
  have hc : c.Indexed added ∧ ∀ q ∈ added, ∀ H ∈ c.headings[q]?, H.1 ≠ rootSectionName :=
    makeAll_induction (P := fun added c => c.Indexed added ∧
      ∀ q ∈ added, ∀ H ∈ c.headings[q]?, H.1 ≠ rootSectionName) ⟨indexed_empty program, by simp⟩
      (fun e he _ _ _ _ hc hmake =>
        ⟨hc.1.make hmake, hc.1.ne_rootSectionName hc.2 (hnames e he) hmake⟩) h
  obtain ⟨P, hok, hP⟩ := exists_procedure_eq_ok hp
  have hheading : c.headings[p]? = some (P.name, P.owner) := by rw [getElem?_headings, hP]; rfl
  rw [isRoot, hok, ok_bind]
  constructor
  · intro hroot hmem
    exact hc.2 p hmem _ hheading (eq_of_beq (Except.ok.inj hroot))
  · intro hnot
    have himplicit := hc.1.implicit p (length_headings c ▸ hp) hnot
    rw [hheading] at himplicit
    have hname : P.name = rootSectionName := congrArg Prod.fst (Option.some.inj himplicit)
    rw [hname, beq_self_eq_true]
    rfl

/-! ### Look-ups -/

/-- The names that a look-up compares qualifiers with. -/
theorem Indexed.ancestors_eq_ok (h : c.Indexed added) {P : Procedure}
    (hP : c.procedures[p]? = some P) : c.ancestors p = .ok (c.enclosing P) := by
  rw [ancestors, procedure_eq_ok_iff.2 hP, ok_bind, enclosing]
  cases howner : P.owner with
  | none => rfl
  | some s =>
    have hlt : s < c.procedures.size := by
      rw [← length_headings]
      refine h.owner_lt (P.name, P.owner) ?_ s howner
      exact List.mem_of_getElem? (by rw [getElem?_headings, hP]; rfl)
    obtain ⟨S, hok, hS⟩ := exists_procedure_eq_ok hlt
    simp only [hok, ok_bind, Option.bind_some, hS]
    by_cases hroot : S.name = rootSectionName <;> simp [hroot] <;> rfl

theorem Indexed.qualifiesAs_eq_ok (h : c.Indexed added) {P : Procedure}
    (hP : c.procedures[p]? = some P) (qualifiers : List String) : c.qualifiesAs qualifiers p =
      .ok (decide ((qualifiers.map foldCase).Sublist ((c.enclosing P).map foldCase))) := by
  rw [qualifiesAs, h.ancestors_eq_ok hP, ok_bind]
  refine congrArg Except.ok (Bool.eq_iff_iff.2 ?_)
  rw [List.isEmpty_iff, unmatched_eq_nil_iff, decide_eq_true_iff]

/-- **A reference stands for what a scan of the procedures finds.** However a catalog has been
filled, a look-up answers as if it had gone through the procedures that were added as sections and
paragraphs, in the order in which they were added. -/
theorem resolve_scans {program : Option String} {entries : List Entry}
    (h : makeAll entries { program } = .ok (added, c)) (n : QualifiedName) :
    added.Pairwise (· < ·) ∧ c.Resolves n (added.filter (c.Bears n ·)) := by
  have hc := indexed_makeAll h
  refine ⟨hc.rising, .of_ofMatches ?_⟩
  have hstored : ∀ p ∈ added, ∃ P, c.procedures[p]? = some P := fun p hp =>
    ⟨_, Array.getElem?_eq_getElem (length_headings c ▸ hc.lt p hp)⟩
  have hfilter := filterM_eq_ok_filter (f := c.qualifiesAs n.qualifiers)
    (l := c.index.find (foldCase n.name)) (p := (c.Bears n ·)) fun p hp => by
      rw [hc.find_eq] at hp
      obtain ⟨hp, hname⟩ := List.mem_filter.1 hp
      obtain ⟨P, hP⟩ := hstored p hp
      rw [hc.qualifiesAs_eq_ok hP]
      have hsame : foldCase P.name = foldCase n.name := by simpa [getElem?_headings, hP] using hname
      simp [Bears, hP, hsame]
  rw [resolve, hfilter, ok_bind, hc.find_eq, List.filter_filter]
  refine congrArg (fun l => Except.ok (Resolution.ofMatches l)) (List.filter_congr fun p hp => ?_)
  obtain ⟨P, hP⟩ := hstored p hp
  by_cases hsame : foldCase P.name = foldCase n.name <;>
    simp [Bears, getElem?_headings, hP, hsame]

/-- Two paragraphs of one name, in sections of their own. -/
def twoParagraphs : List Entry :=
  [.rootSection, .newSection "S1" false Span.unknown, .newParagraph "P" (some 1) false Span.unknown,
    .newSection "S2" false Span.unknown, .newParagraph "P" (some 3) false Span.unknown,
    .newSentence (some 4) false]

/-- The catalog that they make. -/
def twoParagraphsCatalog : Procedures where
  program := some "A"
  procedures := #[
    { id := 0, name := rootSectionName, kind := .sectionProcedure },
    { id := 1, name := "S1", kind := .sectionProcedure, parts := [.paragraphPart 2] },
    { id := 2, name := "P", kind := .paragraphProcedure, owner := some 1 },
    { id := 3, name := "S2", kind := .sectionProcedure, parts := [.paragraphPart 4] },
    { id := 4, name := "P", kind := .paragraphProcedure, owner := some 3, parts := [.sentence 0] }]
  index := [("S1", [1]), ("P", [2, 4]), ("S2", [3])]
  sentences := #[{ id := 0, owner := some 4 }]

/-- The section tells which paragraph is meant, in whatever case it is written. The program, which
encloses both, does not. -/
theorem resolve_scans_twoParagraphs :
    makeAll twoParagraphs { program := some "A" } = .ok ([1, 2, 3, 4], twoParagraphsCatalog) ∧
      twoParagraphsCatalog.resolve { name := "p", qualifiers := ["s2", "a"] } = .ok (.unique 4) ∧
      twoParagraphsCatalog.resolve { name := "P", qualifiers := ["A"] } = .ok (.ambiguous 2) := by
  have h : makeAll twoParagraphs { program := some "A" } =
      .ok ([1, 2, 3, 4], twoParagraphsCatalog) := by decide +kernel
  have hfold : ["P", "p", "S1", "S2", "s2", "A", "a"].map foldCase =
      ["P", "P", "S1", "S2", "S2", "A", "A"] := by decide +kernel
  simp only [List.map_cons, List.cons.injEq] at hfold
  have hsection : ¬ ["S2", "A"].Sublist ["S1", "A"] := by decide
  have hone : ∀ p ∈ [1, 2, 3, 4], p = 4 ↔
      twoParagraphsCatalog.Bears { name := "p", qualifiers := ["s2", "a"] } p := by
    simp [Bears, enclosing, twoParagraphsCatalog, rootSectionName, hfold, hsection,
      -List.filter_cons_of_pos, List.filter_cons]
  have htwo : ∀ p ∈ [1, 2, 3, 4], p ∈ [2, 4] ↔
      twoParagraphsCatalog.Bears { name := "P", qualifiers := ["A"] } p := by
    simp [Bears, enclosing, twoParagraphsCatalog, rootSectionName, hfold, -List.filter_cons_of_pos]
  have hscan {n : QualifiedName} {f : ProcedureId → Prop} [DecidablePred f]
      (hf : ∀ p ∈ [1, 2, 3, 4], f p ↔ twoParagraphsCatalog.Bears n p) :
      twoParagraphsCatalog.Resolves n ([1, 2, 3, 4].filter f) := by
    rw [List.filter_congr fun p hp => decide_eq_decide.2 (hf p hp)]
    exact (resolve_scans h n).2
  exact ⟨h, (hscan hone).unique 4 rfl, (hscan htwo).ambiguous (by decide)⟩

end Procedures

end CobolFlow
