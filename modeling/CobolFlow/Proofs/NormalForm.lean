import CobolFlow.Proofs.Json.Nesting
import CobolFlow.Proofs.RoundTrip

/-!
# The normal form of a text

A text that is read and written again says everything that it left out: positions that are not
known, bodies and lists without items. That can take a container where the text had none, so a text
that uses up the room for containers may have a normal form that is refused. This is all that
becomes of it. The containers that are added never stand in each other, so the normal form is at
most one container deeper than the text; if there is room for it, it is read as the same tree.

The part about the depth follows the decoders, which fix what may be left out. The part about the
refusal follows the encoders: a normal form is refused as too deep and for nothing else, because
the members before the one that is too deep are read as they were written.

## Main definitions

* `WhenClause.toJson`, `ExceptionClause.toJson` — clauses as they are written
* `bareTree`, `nestedTree` — programs in each other, as they may be given and as they are read

## Main results

* `Statement.confines`, `ProgramText.confines`, `StatementTree.confines` — what is read is at most
  one container deeper when it is written
* `Statement.measures`, `ProgramText.measures`, `StatementTree.measures` — what is written is read
  back, or refused as too deep
* `StatementTree.ofJson_normalForm` — a text and its normal form
-/

namespace CobolFlow

open Json

/-! ### What is made of a text is not much deeper -/

theorem Span.confines : Confines Span.decode Span.toJson := .of_depth_le_one fun _ => le_rfl

theorem QualifiedName.depth_toJson_le (n : QualifiedName) : n.toJson.depth ≤ 2 := by
  obtain ⟨name, qualifiers⟩ := n
  have hqualifiers : itemsDepth (qualifiers.map .string) ≤ 0 :=
    itemsDepth_le_iff.2 (List.forall_mem_map.2 fun q _ => le_rfl)
  cases qualifiers with
  | nil => exact Nat.le_succ 1
  | cons q rest =>
    change max 0 (max (itemsDepth ((q :: rest).map .string) + 1) 0) + 1 ≤ 2
    omega

theorem QualifiedName.confines : Confines QualifiedName.decode QualifiedName.toJson :=
  .record (QualifiedName.depth_toJson_le _) (.of_le_two fun _ => QualifiedName.depth_toJson_le _)

theorem AlterClause.confines : Confines AlterClause.decode AlterClause.toJson := by
  refine .record (by decide) <| .cons QualifiedName.confines ?_ <|
    .cons QualifiedName.confines ?_ .nil
  all_goals
    intro r a
    simp only [AlterClause.toJson, Json.depth, membersDepth, Option.getD_some]
    omega

/-- A clause of EVALUATE or SEARCH as it is written. -/
def WhenClause.toJson : WhenClause → Json
  | .mk phrases body =>
    .object [("conditions", .array (phrases.map .string)), ("body", .array (statementsJson body))]

/-- An exception clause as it is written. -/
def ExceptionClause.toJson : ExceptionClause → Json
  | .mk phrase body =>
    .object [("condition", wordJson phrase), ("body", .array (statementsJson body))]

theorem statementsJson_eq_map : ∀ l : List Statement, statementsJson l = l.map Statement.toJson
  | [] => rfl
  | s :: rest => congrArg (s.toJson :: ·) (statementsJson_eq_map rest)

theorem whensJson_eq_map : ∀ l : List WhenClause, whensJson l = l.map WhenClause.toJson
  | [] => rfl
  | .mk _ _ :: rest => congrArg (_ :: ·) (whensJson_eq_map rest)

theorem conditionsJson_eq_map : ∀ l : List ExceptionClause,
    conditionsJson l = l.map ExceptionClause.toJson
  | [] => rfl
  | .mk _ _ :: rest => congrArg (_ :: ·) (conditionsJson_eq_map rest)

theorem programsJson_eq_map : ∀ l : List ProgramText, programsJson l = l.map ProgramText.toJson
  | [] => rfl
  | p :: rest => congrArg (p.toJson :: ·) (programsJson_eq_map rest)

section

variable {statement : Decoder Statement}

theorem confines_statements (h : Confines statement Statement.toJson) :
    Confines (Decoder.list statement) fun l => .array (statementsJson l) := by
  simpa only [statementsJson_eq_map] using h.list

theorem confines_part (h : Confines statement Statement.toJson) :
    Confines (Decoder.optional (Decoder.list statement)) partJson := by
  have hpart : partJson = orNull fun l => .array (statementsJson l) := by
    funext part
    cases part <;> rfl
  rw [hpart]
  exact (confines_statements h).orNull

theorem WhenClause.confines (h : Confines statement Statement.toJson) :
    Confines (WhenClause.decode statement) WhenClause.toJson := by
  refine .record (by decide) <| .cons (Confines.string.list) ?_ <|
    .cons (confines_statements h) ?_ .nil
  all_goals
    intro r a
    simp only [WhenClause.toJson, Json.depth, membersDepth, Option.getD_some]
    omega

theorem ExceptionClause.confines (h : Confines statement Statement.toJson) :
    Confines (ExceptionClause.decode statement) ExceptionClause.toJson := by
  refine .record (by decide) <| .cons .word ?_ <| .cons (confines_statements h) ?_ .nil
  all_goals
    intro r a
    simp only [ExceptionClause.toJson, wordJson, Json.depth, membersDepth, Option.getD_some]
    omega

/-- A member of a form stands one container below the statement, like the draft it is read from. -/
theorem FormWord.shallow (h : Confines statement Statement.toJson) (w : FormWord) :
    Shallow (fun r => membersDepth (w.form r).members + 1) (w.fields statement) := by
  have hbody := confines_statements h
  have hpart := confines_part h
  have hwhens : Confines (Decoder.list (WhenClause.decode statement))
      fun l => .array (whensJson l) := by
    simpa only [whensJson_eq_map] using (WhenClause.confines h).list
  have hconditions : Confines (Decoder.list (ExceptionClause.decode statement))
      fun l => .array (conditionsJson l) := by
    simpa only [conditionsJson_eq_map] using (ExceptionClause.confines h).list
  refine match w with
    | .ifThen => .cons hbody ?_ <| .cons hpart ?_ .nil
    | .evaluate => .cons hwhens ?_ <| .cons hpart ?_ .nil
    | .search => .cons hpart ?_ <| .cons hwhens ?_ .nil
    | .alter => .cons AlterClause.confines.list ?_ .nil
    | .goTo => .cons QualifiedName.confines.list ?_ <| .cons .bool ?_ .nil
    | .perform => .cons QualifiedName.confines ?_ <| .cons QualifiedName.confines.orNull ?_ .nil
    | .loop => .cons .word ?_ <| .cons .bool ?_ <| .cons hbody ?_ .nil
    | .call => .cons Confines.string.orNull ?_ <| .cons hconditions ?_ .nil
    | .ordinary => .cons .word ?_ <| .cons hconditions ?_ .nil
    | .exit | .nextSentence | .stopRun | .exitProgram | .exitMethod | .goback => .nil
  all_goals
    intro r a
    simp only [FormWord.form, StatementForm.members, wordJson, Json.depth, membersDepth,
      Option.getD_some]
    omega

end

/-- Nothing is set aside that was not given. -/
theorem StatementParts.others_subset {p : Json.Place} {given : List (Draft × Draft)}
    {r r' : StatementParts} (h : StatementParts.read p given r = .ok r') :
    r'.others ⊆ given ++ r.others := by
  induction given generalizing r with
  | nil =>
    obtain rfl := Except.ok.inj h
    exact List.Subset.refl _
  | cons m rest ih =>
    obtain ⟨key, value⟩ := m
    obtain ⟨name, -, h⟩ := exists_of_bind_eq_ok h
    split at h
    -- The text and the position are read and not set aside.
    · split at h
      · cases h
      · obtain ⟨text, -, h⟩ := exists_of_bind_eq_ok h
        exact fun m hm => List.mem_cons_of_mem _ (ih h hm)
    · split at h
      · split at h
        · cases h
        · obtain ⟨span, -, h⟩ := exists_of_bind_eq_ok h
          exact fun m hm => List.mem_cons_of_mem _ (ih h hm)
      · have h : StatementParts.read p rest { r with others := (key, value) :: r.others } =
            .ok r' := by
          dsimp only at h
          split at h
          · exact h
          · obtain ⟨_, -, h⟩ := exists_of_bind_eq_ok h
            exact h
        intro m hm
        have := ih h hm
        simp only [List.mem_append, List.mem_cons] at this ⊢
        tauto

theorem FormWord.others_subset {given others left : List (Draft × Draft)} {w? : Option FormWord}
    {w : FormWord} (h : FormWord.split given w? others = .ok (w, left)) :
    left ⊆ given ++ others := by
  induction given generalizing w? others with
  | nil =>
    cases w? with
    | none => cases h
    | some w =>
      cases h
      exact fun m hm => List.mem_reverse.1 hm
  | cons m rest ih =>
    obtain ⟨key, value⟩ := m
    obtain ⟨name, -, h⟩ := exists_of_bind_eq_ok h
    split at h
    · split at h
      · cases h
      · obtain ⟨w, -, h⟩ := exists_of_bind_eq_ok h
        exact fun m hm => List.mem_cons_of_mem _ (ih h hm)
    · intro m hm
      have := ih h hm
      simp only [List.mem_append, List.mem_cons] at this ⊢
      tauto

theorem Statement.depth_toJson (form : StatementForm) (text : Option String) (span : Span) :
    (Statement.mk form text span).toJson.depth = max (membersDepth form.members) 1 + 1 := by
  rw [Statement.toJson_eq]
  cases text <;>
    simp [Statement.given, Json.depth, membersDepth, membersDepth_append, wordJson, Span.toJson]

theorem Statement.confines : ∀ n, Confines (Statement.decode n) Statement.toJson
  | 0 => fun _ _ _ h => nomatch h
  | n + 1 => by
    intro p d s hd
    cases d with
    | object given ending =>
      obtain ⟨inner, hinner, hd⟩ := exists_of_bind_eq_ok hd
      obtain ⟨parts, hparts, hd⟩ := exists_of_bind_eq_ok hd
      obtain ⟨_, -, hd⟩ := exists_of_bind_eq_ok hd
      obtain ⟨⟨w, others⟩, hsplit, hd⟩ := exists_of_bind_eq_ok hd
      obtain ⟨r, hr, hd⟩ := exists_of_bind_eq_ok hd
      obtain rfl := Except.ok.inj hd
      -- The members that the kind decides about are among those given, in whatever order.
      have hothers : Draft.membersDepth others ≤ Draft.membersDepth given := by
        refine Draft.membersDepth_le_iff.2 fun m hm => Draft.membersDepth_le_iff.1 le_rfl m ?_
        have hparts := StatementParts.others_subset hparts
        have hsplit := FormWord.others_subset hsplit
        simp only [List.append_nil] at hparts hsplit
        exact hparts (List.mem_reverse.1 (hsplit hm))
      have hform := (FormWord.shallow (Statement.confines n) w).members_le hr
      have hstart : membersDepth (w.form {}).members + 1 ≤ 2 := by
        cases w <;> decide
      have := Place.depth_of_enter_eq_ok hinner
      rw [Statement.depth_toJson, Draft.depth]
      dsimp only at hform
      omega
    | _ => exact absurd hd Draft.unwanted_ne_ok

theorem confines_sentences : Confines decodeSentences sentencesJson :=
  (confines_statements (Statement.confines maxDepth)).list

theorem ParagraphText.confines : Confines ParagraphText.decode ParagraphText.toJson := by
  refine .record (by decide) <| .cons .string ?_ <| .cons Span.confines ?_ <|
    .cons confines_sentences ?_ .nil
  all_goals
    intro r a
    simp only [ParagraphText.toJson, Json.depth, membersDepth, Option.getD_some]
    omega

theorem SectionText.confines : Confines SectionText.decode SectionText.toJson := by
  refine .record (by decide) <| .cons .string ?_ <| .cons Span.confines ?_ <|
    .cons confines_sentences ?_ <| .cons ParagraphText.confines.list ?_ .nil
  all_goals
    intro r a
    simp only [SectionText.toJson, Json.depth, membersDepth, Option.getD_some]
    omega

theorem DivisionText.confines : Confines DivisionText.decode DivisionText.toJson := by
  refine .record (by decide) <| .cons SectionText.confines.list ?_ <|
    .cons confines_sentences ?_ <| .cons ParagraphText.confines.list ?_ <|
    .cons SectionText.confines.list ?_ .nil
  all_goals
    intro r a
    simp only [DivisionText.toJson, Json.depth, membersDepth, Option.getD_some]
    omega

theorem confines_programs {n : ℕ} (h : Confines (ProgramText.decode n) ProgramText.toJson) :
    Confines (Decoder.list (ProgramText.decode n)) fun l => .array (programsJson l) := by
  simpa only [programsJson_eq_map] using h.list

theorem ProgramText.confines : ∀ n, Confines (ProgramText.decode n) ProgramText.toJson
  | 0 => fun _ _ _ h => nomatch h
  | n + 1 => by
    have hnested := confines_programs (ProgramText.confines n)
    refine .record (by decide) <| .cons .string ?_ <| .cons .word ?_ <|
      .cons DivisionText.confines.orNull ?_ <| .cons hnested ?_ .nil
    all_goals
      intro r a
      simp only [ProgramText.toJson, wordJson, Json.depth, membersDepth, Option.getD_some]
      omega

theorem StatementTree.confines : Confines StatementTree.decode StatementTree.toJson := by
  refine .record (by decide) <| .cons (confines_programs (ProgramText.confines maxDepth)) ?_ .nil
  intro r a
  simp only [StatementTree.toJson, Json.depth, membersDepth, Option.getD_some]
  omega

/-! ### What is too deep is refused -/

theorem Span.measures {limit : ℕ} (s : Span) : Measures limit Span.decode s.toJson s := by
  refine ⟨s.decodes, fun p _ hdepth _ => ?_⟩
  obtain ⟨setAside, room⟩ := p
  obtain rfl : room = 0 := Nat.lt_one_iff.1 hdepth
  rfl

namespace StatementParts

variable {p : Json.Place} {rest : List (Draft × Draft)} {r : StatementParts}

/-- The members that the kind decides about are checked one by one as they are set aside, up to the
first that is too deep. -/
theorem read_others_eq_error {given : List (String × Json)} (hdirect : p.setAside = false)
    (hsettles : ∀ m ∈ given, m.2.Settles) (hkeys : ∀ m ∈ given, m.1 ≠ "text" ∧ m.1 ≠ "span")
    (hdepth : p.depth < membersDepth given) :
    StatementParts.read p (memberDrafts given ++ rest) r = .error .tooDeep := by
  induction given generalizing r with
  | nil => exact absurd hdepth (Nat.not_lt_zero _)
  | cons m given ih =>
    obtain ⟨key, j⟩ := m
    obtain ⟨htext, hspan⟩ := hkeys (key, j) List.mem_cons_self
    have hsettle := settle_draft j (hsettles (key, j) List.mem_cons_self _ le_rfl) p.depth
    rw [memberDrafts, List.cons_append]
    split at hsettle
    · have hrest : p.depth < membersDepth given := by
        rw [membersDepth] at hdepth
        omega
      rw [read_other hsettle htext hspan]
      exact ih (fun m hm => hsettles m (List.mem_cons_of_mem _ hm))
        (fun m hm => hkeys m (List.mem_cons_of_mem _ hm)) hrest
    · rw [StatementParts.read, keyText_pieces]
      change (if key == "text" then _ else if key == "span" then _ else
        if p.setAside then StatementParts.read p (memberDrafts given ++ rest) _
        else j.draft.settle p.depth >>= fun _ => StatementParts.read p _ _) = _
      rw [if_neg (by simpa using htext), if_neg (by simpa using hspan), hdirect, hsettle]
      rfl

theorem read_span_eq_error (span : Span) (h : r.span = none) (hdirect : p.setAside = false)
    (hdepth : p.depth < span.toJson.depth) :
    StatementParts.read p ((.string (pieces "span"), span.toJson.draft) :: rest) r =
      .error .tooDeep := by
  have hmeasures : Measures p.depth Span.decode span.toJson span := span.measures
  rw [StatementParts.read, keyText_pieces]
  change (if r.span.isSome then _ else Span.decode p span.toJson.draft >>= fun s =>
    StatementParts.read p rest { r with span := some s }) = _
  rw [h, hmeasures.refuse p hdirect hdepth le_rfl]
  rfl

end StatementParts

/-- A statement without enough room for one of its members is refused before its kind is looked
for. -/
theorem StatementParts.read_given_eq_error {limit : ℕ} {form : StatementForm}
    (h : form.Decodes limit) (text : Option String) (span : Span) {p : Json.Place}
    (hdirect : p.setAside = false)
    (hdepth : p.depth < membersDepth (Statement.given form text span)) :
    StatementParts.read p (memberDrafts (Statement.given form text span)) {} =
      .error .tooDeep := by
  have hsettles : ∀ m ∈ ("kind", wordJson form.formWord) :: form.members, m.2.Settles :=
    fun m hm => Statement.settles_given h text span m (List.mem_append_left _ hm)
  have hkeys : ∀ m ∈ ("kind", wordJson form.formWord) :: form.members,
      m.1 ≠ "text" ∧ m.1 ≠ "span" :=
    List.forall_mem_cons.2 ⟨⟨by simp, by simp⟩, fun m hm => (form.members_keys m hm).2⟩
  rw [Statement.given, memberDrafts_append]
  obtain hothers | hothers := Nat.lt_or_ge p.depth
    (membersDepth (("kind", wordJson form.formWord) :: form.members))
  · exact read_others_eq_error hdirect hsettles hkeys hothers
  · have hspan : p.depth < span.toJson.depth := by
      have htail : membersDepth ((text.map fun text => ("text", .string text)).toList ++
          [("span", span.toJson)]) = span.toJson.depth := by
        cases text <;> simp [membersDepth, Json.depth]
      rw [Statement.given, membersDepth_append, htail] at hdepth
      omega
    rw [read_others hsettles hkeys hothers]
    cases text with
    | none => exact read_span_eq_error span rfl hdirect hspan
    | some text =>
      change StatementParts.read p [(.string (pieces "text"), draft (.string text)),
        (.string (pieces "span"), span.toJson.draft)] _ = _
      rw [read_text text rfl]
      exact read_span_eq_error span rfl hdirect hspan

theorem Statement.measures (s : Statement) (limit : ℕ) :
    Measures limit (Statement.decode limit) s.toJson s := by
  obtain ⟨form, text, span⟩ := s
  have hdecodes := (Statement.mk form text span).decodes
  rw [Statement.toJson_eq] at hdecodes ⊢
  refine .of_succ (Nat.succ_pos _) (fun _ _ => rfl) fun n _ =>
    ⟨hdecodes (n + 1), fun p hdirect hdepth _ => ?_⟩
  obtain ⟨setAside, room⟩ := p
  cases room with
  | zero => rfl
  | succ room =>
    let inner : Json.Place := { setAside, depth := room }
    have hread := StatementParts.read_given_eq_error (form.decodes n) text span (p := inner) hdirect
      (Nat.lt_of_succ_lt_succ hdepth)
    change (StatementParts.read inner (memberDrafts (Statement.given form text span)) {} >>= _) = _
    rw [hread]
    rfl

variable {limit : ℕ}

theorem measures_statements (body : List Statement) :
    Measures limit (Decoder.list (Statement.decode limit)) (.array (statementsJson body)) body := by
  rw [statementsJson_eq_map]
  exact .list (Measures.forall₂_map body fun s => s.measures limit)

theorem measures_sentences (hlimit : limit ≤ maxDepth) (sentences : List SentenceText) :
    Measures limit decodeSentences (sentencesJson sentences) sentences := by
  refine Measures.mono ?_ hlimit
  exact .list (Measures.forall₂_map sentences measures_statements)

theorem ParagraphText.measures (hlimit : limit ≤ maxDepth) (p : ParagraphText) :
    Measures limit ParagraphText.decode p.toJson p := by
  let r : ProcedureParts :=
    { name := some p.name, span := some p.span, sentences := some p.sentences }
  refine Measures.mono (Fits.measures r ?_ rfl _ rfl) (Nat.le_succ limit)
  exact .cons (by rfl) rfl (.of_flat (.string p.name) rfl) <| .cons (by rfl) rfl p.span.measures <|
    .cons (by rfl) rfl (measures_sentences hlimit p.sentences) .nil

theorem SectionText.measures (hlimit : limit ≤ maxDepth) (s : SectionText) :
    Measures limit SectionText.decode s.toJson s := by
  let r : ProcedureParts :=
    { name := some s.name, span := some s.span, sentences := some s.sentences
      paragraphs := some s.paragraphs }
  refine Measures.mono (Fits.measures r ?_ rfl _ rfl) (Nat.le_succ limit)
  exact .cons (by rfl) rfl (.of_flat (.string s.name) rfl) <| .cons (by rfl) rfl s.span.measures <|
    .cons (by rfl) rfl (measures_sentences hlimit s.sentences) <|
    .cons (by rfl) rfl
      (.list (Measures.forall₂_map s.paragraphs (ParagraphText.measures hlimit))) .nil

theorem DivisionText.measures (hlimit : limit ≤ maxDepth) (d : DivisionText) :
    Measures limit DivisionText.decode d.toJson d := by
  let r : DivisionParts :=
    { declaratives := some d.declaratives, sentences := some d.sentences
      paragraphs := some d.paragraphs, sections := some d.sections }
  refine Measures.mono (Fits.measures r ?_ rfl _ rfl) (Nat.le_succ limit)
  exact .cons (by rfl) rfl
      (.list (Measures.forall₂_map d.declaratives (SectionText.measures hlimit))) <|
    .cons (by rfl) rfl (measures_sentences hlimit d.sentences) <|
    .cons (by rfl) rfl
      (.list (Measures.forall₂_map d.paragraphs (ParagraphText.measures hlimit))) <|
    .cons (by rfl) rfl
      (.list (Measures.forall₂_map d.sections (SectionText.measures hlimit))) .nil

mutual

theorem ProgramText.measures : ∀ (p : ProgramText) {limit : ℕ}, limit ≤ maxDepth →
    Measures limit (ProgramText.decode limit) p.toJson p
  | .mk name kind division nested, limit, hlimit => by
    refine .of_succ (by rw [ProgramText.toJson]; exact Nat.succ_pos _) (fun _ _ => rfl)
      fun n hn => ?_
    have hn' := hn.trans hlimit
    let r : ProgramParts :=
      { name := some name, kind := some kind, division := some division, nested := some nested }
    rw [ProgramText.toJson, ProgramText.decode]
    refine Fits.measures r ?_ rfl _ rfl
    exact .cons (by rfl) rfl (.of_flat (.string name) rfl) <|
      .cons (by rfl) rfl (.of_flat (.word kind) rfl) <|
      .cons (by rfl) rfl
        (Measures.orNull division (DivisionText.measures hn') fun _ => nofun) <|
      .cons (by rfl) rfl (.list (measures_programs nested hn')) .nil

theorem measures_programs : ∀ (l : List ProgramText) {limit : ℕ}, limit ≤ maxDepth →
    List.Forall₂ (Measures limit (ProgramText.decode limit)) (programsJson l) l
  | [], _, _ => .nil
  | p :: rest, _, hlimit => .cons (p.measures hlimit) (measures_programs rest hlimit)

end

theorem StatementTree.measures (t : StatementTree) :
    Measures maxDepth StatementTree.decode t.toJson t := by
  let r : TreeParts := { programs := some t.programs }
  refine Measures.mono (Fits.measures r ?_ rfl _ rfl) (Nat.le_succ maxDepth)
  exact .cons (by rfl) rfl (.list (measures_programs t.programs le_rfl)) .nil

/-! ### Programs in each other -/

/-- A program with `n` programs in each other inside of it, written with as little as possible. -/
def bareProgram : ℕ → Json
  | 0 => .object [("name", .string "A")]
  | n + 1 => .object [("name", .string "A"), ("nested", .array [bareProgram n])]

/-- The program that `bareProgram n` is read as. -/
def nestedProgram : ℕ → ProgramText
  | 0 => .mk "A" .program none []
  | n + 1 => .mk "A" .program none [nestedProgram n]

def bareTree (n : ℕ) : Json := .object [("programs", .array [bareProgram n])]

/-- The tree that `bareTree n` is read as. -/
def nestedTree (n : ℕ) : StatementTree where
  programs := [nestedProgram n]

theorem depth_bareProgram : ∀ n, (bareProgram n).depth = 2 * n + 1
  | 0 => rfl
  | n + 1 => by
    simp only [bareProgram, Json.depth, membersDepth, itemsDepth, depth_bareProgram n]
    omega

theorem depth_nestedProgram : ∀ n, (nestedProgram n).toJson.depth = 2 * n + 2
  | 0 => rfl
  | n + 1 => by
    simp only [nestedProgram, ProgramText.toJson, programsJson, wordJson, orNull, Json.depth,
      membersDepth, itemsDepth, depth_nestedProgram n]
    omega

theorem decodes_bareProgram : ∀ n {limit : ℕ},
    Decodes limit (ProgramText.decode limit) (bareProgram n) (nestedProgram n)
  | 0, limit => by
    refine .of_succ (Nat.succ_pos _) fun n _ => ?_
    refine Fills.decodes ({ name := some "A" } : ProgramParts) ?_ rfl _ rfl
    exact .cons (by rfl) rfl (.string "A") .nil
  | n + 1, limit => by
    refine .of_succ (by rw [bareProgram]; exact Nat.succ_pos _) fun m _ => ?_
    let r : ProgramParts := { name := some "A", nested := some [nestedProgram n] }
    refine Fills.decodes r ?_ rfl _ rfl
    exact .cons (by rfl) rfl (.string "A") <|
      .cons (by rfl) rfl (.list (.cons (decodes_bareProgram n) .nil)) .nil

theorem decodes_bareTree (n : ℕ) :
    Decodes maxDepth StatementTree.decode (bareTree n) (nestedTree n) := by
  let r : TreeParts := { programs := some [nestedProgram n] }
  refine Decodes.mono (Fills.decodes r ?_ rfl _ rfl) (Nat.le_succ maxDepth)
  exact .cons (by rfl) rfl (.list (.cons (decodes_bareProgram n) .nil)) .nil

theorem depth_bareTree (n : ℕ) : (bareTree n).depth = 2 * n + 3 := by
  simp only [bareTree, Json.depth, membersDepth, itemsDepth, depth_bareProgram]
  omega

/-- A container can be added where it counts, so a normal form can be as deep as it may be at
most. -/
theorem depth_nestedTree (n : ℕ) :
    (nestedTree n).toJson.depth = nesting (bareTree n).compact + 1 := by
  rw [nesting_compact, depth_bareTree]
  simp only [nestedTree, StatementTree.toJson, programsJson, Json.depth, membersDepth, itemsDepth,
    depth_nestedProgram]
  omega

/-! ### Texts and their normal forms -/

/-- **The normal form of a text** is at most one container deeper than the text, and than there is
room for. It is read as the same tree, on one line or over several, unless it is too deep; then it
is refused for that. -/
theorem StatementTree.ofJson_normalForm {text : List Char} {t : StatementTree}
    (h : StatementTree.ofJson text = .ok t) :
    t.toJson.depth ≤ min maxDepth (nesting text) + 1 ∧
      ∀ written ∈ [t.toJson.compact, t.toJson.pretty 0], StatementTree.ofJson written =
        if t.toJson.depth ≤ maxDepth then .ok t else .error .tooDeep := by
  refine ⟨?_, ?_⟩
  · obtain ⟨t', hdecode, h⟩ := exists_of_bind_eq_ok h
    have ht : t' = t := by
      dsimp only at h
      split at h
      · exact Except.ok.inj h
      · cases h
    exact StatementTree.confines _ _ _ (ht ▸ hdecode)
  · simp only [List.forall_mem_cons, List.not_mem_nil, false_implies, implies_true, and_true]
    exact ⟨t.measures.decodeText_eq (read_compact _), t.measures.decodeText_eq (read_pretty _)⟩

/-- A division written as an array, and a statement without its position. -/
def shorthandText : List Char :=
  ("\x7b\"programs\": [\x7b\"name\": \"A\", " ++
    "\"procedure_division\": [[], [[\x7b\"kind\": \"exit\"\x7d]]]\x7d]\x7d").toList

def shorthandTree : StatementTree where
  programs := [.mk "A" .program (some { sentences := [[.mk .exit none .unknown]] }) []]

theorem StatementTree.normalForm_shorthandText :
    StatementTree.ofJson shorthandText = .ok shorthandTree ∧
      shorthandTree.toJson.depth ≤ min maxDepth (nesting shorthandText) + 1 ∧
      ∀ written ∈ [shorthandTree.toJson.compact, shorthandTree.toJson.pretty 0],
        StatementTree.ofJson written =
          if shorthandTree.toJson.depth ≤ maxDepth then .ok shorthandTree else .error .tooDeep :=
  have h : StatementTree.ofJson shorthandText = .ok shorthandTree := by cbv
  ⟨h, StatementTree.ofJson_normalForm h⟩

/-- A text may be read although its normal form is refused: the innermost of the programs has no
list of programs inside of it until it is written. -/
theorem StatementTree.normalForm_tooDeep :
    StatementTree.ofJson (bareTree 62).compact = .ok (nestedTree 62) ∧
      StatementTree.ofJson (nestedTree 62).toJson.compact = .error .tooDeep := by
  refine ⟨decodeText_eq (decodes_bareTree 62) (depth_bareTree 62).le (read_compact _), ?_⟩
  rw [StatementTree.ofJson, (nestedTree 62).measures.decodeText_eq (read_compact _),
    depth_nestedTree, nesting_compact, depth_bareTree]
  rfl

end CobolFlow
