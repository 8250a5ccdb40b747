import CobolFlow.Proofs.Json.Decoding
import CobolFlow.Tree.Encode

/-!
# A tree that is written is read back

Every part of a statement tree is written so that its decoder makes the same part of it again. For
most parts this is said member by member, in the order in which they are written.

Statements take more. Their members depend on one of them, so all but the text and the position are
set aside, and are decoded only when the kind is known. A decoder of statements also counts how
deep it is. That there is room for a statement wherever it stands follows from the room that its
containers have.

## Main definitions

* `StatementForm.Decodes` — the members of a form are read back as the form
* `Statement.given` — the members of a statement

## Main results

* `Statement.decodes`, `ProgramText.decodes` — every statement and program is read back
* `StatementTree.ofJson_toJson` — a whole tree
-/

namespace CobolFlow

open Json

variable {limit : ℕ}

theorem Span.decodes (s : Span) : Decodes limit Span.decode s.toJson s := by
  let r : SpanParts :=
    { start := some s.start.toNat, stop := some s.stop.toNat
      line := some s.line.toNat, column := some s.column.toNat }
  refine Decodes.mono (Fills.decodes r ?_ rfl _ ?_) (Nat.le_succ limit)
  · exact .cons (by rfl) rfl (.unsigned s.start.toNat_lt le_rfl "usize") <|
      .cons (by rfl) rfl (.unsigned s.stop.toNat_lt le_rfl "usize") <|
      .cons (by rfl) rfl (.unsigned s.line.toNat_lt (by decide) "u32") <|
      .cons (by rfl) rfl (.unsigned s.column.toNat_lt (by decide) "u32") .nil
  · simp [r]

theorem QualifiedName.decodes (n : QualifiedName) :
    Decodes limit QualifiedName.decode n.toJson n := by
  obtain ⟨name, qualifiers⟩ := n
  cases qualifiers with
  | nil =>
    let r : NameParts := { name := some name }
    refine Decodes.mono (Fills.decodes r ?_ rfl _ rfl) (Nat.le_succ limit)
    exact .cons (by rfl) rfl (.string name) .nil
  | cons q rest =>
    let r : NameParts := { name := some name, qualifiers := some (q :: rest) }
    refine Decodes.mono (Fills.decodes r ?_ rfl _ rfl) (Nat.le_succ limit)
    exact .cons (by rfl) rfl (.string name) <|
      .cons (by rfl) rfl (.list (Decodes.forall₂_map (q :: rest) fun q _ => .string q)) .nil

theorem AlterClause.decodes (c : AlterClause) : Decodes limit AlterClause.decode c.toJson c := by
  let r : AlterParts := { altered := some c.altered, target := some c.target }
  refine Decodes.mono (Fills.decodes r ?_ rfl _ rfl) (Nat.le_succ limit)
  exact .cons (by rfl) rfl c.altered.decodes <| .cons (by rfl) rfl c.target.decodes .nil

/-! ### Statements -/

theorem WhenClause.decodes {statement : Decoder Statement} {phrases : List String}
    {body : List Statement}
    (h : Decodes limit (Decoder.list statement) (.array (statementsJson body)) body) :
    Decodes limit (WhenClause.decode statement)
      (.object [("conditions", .array (phrases.map .string)),
        ("body", .array (statementsJson body))]) (.mk phrases body) := by
  let r : WhenParts := { phrases := some phrases, body := some body }
  refine Decodes.mono (Fills.decodes r ?_ rfl _ rfl) (Nat.le_succ limit)
  exact .cons (by rfl) rfl (.list (Decodes.forall₂_map phrases fun q _ => .string q)) <|
    .cons (by rfl) rfl h .nil

theorem ExceptionClause.decodes {statement : Decoder Statement} {phrase : ExceptionPhrase}
    {body : List Statement}
    (h : Decodes limit (Decoder.list statement) (.array (statementsJson body)) body) :
    Decodes limit (ExceptionClause.decode statement)
      (.object [("condition", wordJson phrase), ("body", .array (statementsJson body))])
      (.mk phrase body) := by
  let r : ExceptionParts := { phrase := some phrase, body := some body }
  refine Decodes.mono (Fills.decodes r ?_ rfl _ rfl) (Nat.le_succ limit)
  exact .cons (by rfl) rfl (.word phrase) <| .cons (by rfl) rfl h .nil

/-- The members of the form are read back as the form. -/
def StatementForm.Decodes (limit : ℕ) (form : StatementForm) : Prop :=
  ∃ r, Fills limit (form.formWord.fields (Statement.decode limit)) form.members {} r ∧
    ((form.formWord.fields (Statement.decode limit)).find? fun f => f.required && !f.isSet r) =
      none ∧
    form.formWord.form r = form

namespace StatementParts

variable {p : Json.Place} {rest : List (Draft × Draft)} {r : StatementParts}

theorem keyText_pieces (key : String) : (Draft.string (pieces key)).keyText = .ok key :=
  text_pieces key

theorem read_other {key : String} {j : Json} (hsettle : j.draft.settle p.depth = .ok ())
    (htext : key ≠ "text") (hspan : key ≠ "span") :
    StatementParts.read p ((.string (pieces key), j.draft) :: rest) r =
      StatementParts.read p rest
        { r with others := (.string (pieces key), j.draft) :: r.others } := by
  rw [StatementParts.read, keyText_pieces]
  change (if key == "text" then _ else if key == "span" then _ else
    if p.setAside then StatementParts.read p rest _
    else j.draft.settle p.depth >>= fun _ => StatementParts.read p rest _) = _
  rw [if_neg (by simpa using htext), if_neg (by simpa using hspan), hsettle]
  cases p.setAside <;> rfl

/-- The members that the kind decides about are set aside. -/
theorem read_others {given : List (String × Json)} (hsettles : ∀ m ∈ given, m.2.Settles)
    (hkeys : ∀ m ∈ given, m.1 ≠ "text" ∧ m.1 ≠ "span") (hdepth : membersDepth given ≤ p.depth) :
    StatementParts.read p (memberDrafts given ++ rest) r =
      StatementParts.read p rest
        { r with others := (memberDrafts given).reverse ++ r.others } := by
  induction given generalizing r with
  | nil => rfl
  | cons m given ih =>
    obtain ⟨key, j⟩ := m
    obtain ⟨hhead, htail⟩ := Nat.max_le.1 hdepth
    obtain ⟨htext, hspan⟩ := hkeys (key, j) List.mem_cons_self
    have hsettle := hsettles (key, j) List.mem_cons_self p.depth hhead
    rw [memberDrafts, List.cons_append, read_other hsettle htext hspan,
      ih (fun m hm => hsettles m (List.mem_cons_of_mem _ hm))
        (fun m hm => hkeys m (List.mem_cons_of_mem _ hm)) htail]
    simp

theorem read_text (text : String) (h : r.text = none) :
    StatementParts.read p ((.string (pieces "text"), draft (.string text)) :: rest) r =
      StatementParts.read p rest { r with text := some (some text) } := by
  have hdecode : Decodes p.depth (Decoder.optional Decoder.string) (.string text) (some text) :=
    (Decodes.string text).optional nofun
  rw [StatementParts.read, keyText_pieces]
  change (if r.text.isSome then _ else Decoder.optional Decoder.string p _ >>= fun t =>
    StatementParts.read p rest { r with text := some t }) = _
  rw [h, hdecode.decode p (Nat.zero_le _) le_rfl]
  rfl

theorem read_span (span : Span) (h : r.span = none) (hdepth : span.toJson.depth ≤ p.depth) :
    StatementParts.read p ((.string (pieces "span"), span.toJson.draft) :: rest) r =
      StatementParts.read p rest { r with span := some span } := by
  have hdecode : Decodes p.depth Span.decode span.toJson span := span.decodes
  rw [StatementParts.read, keyText_pieces]
  change (if r.span.isSome then _ else Span.decode p span.toJson.draft >>= fun s =>
    StatementParts.read p rest { r with span := some s }) = _
  rw [h, hdecode.decode p hdepth le_rfl]
  rfl

end StatementParts

namespace FormWord

theorem decode_word (w : FormWord) : FormWord.decode (wordJson w).draft = .ok w := by
  rw [wordJson, draft, FormWord.decode, text_pieces]
  change Decoder.ofWord (Vocabulary.word w) = .ok w
  rw [Decoder.ofWord, Vocabulary.ofWord?_word]

theorem split_others (w : FormWord) {given : List (String × Json)}
    (hkeys : ∀ m ∈ given, m.1 ≠ "kind") (others : List (Draft × Draft)) :
    FormWord.split (memberDrafts given) (some w) others =
      .ok (w, others.reverse ++ memberDrafts given) := by
  induction given generalizing others with
  | nil => rw [memberDrafts, FormWord.split, List.append_nil]
  | cons m given ih =>
    obtain ⟨key, j⟩ := m
    have hkey : ¬ (key == "kind") = true := by simpa using hkeys (key, j) List.mem_cons_self
    rw [memberDrafts, FormWord.split, StatementParts.keyText_pieces]
    change (if key == "kind" then _ else FormWord.split (memberDrafts given) (some w) _) = _
    rw [if_neg hkey, ih fun m hm => hkeys m (List.mem_cons_of_mem _ hm)]
    simp

/-- The kind is found and the other members are left. -/
theorem split_kind (w : FormWord) {given : List (String × Json)}
    (hkeys : ∀ m ∈ given, m.1 ≠ "kind") :
    FormWord.split (memberDrafts (("kind", wordJson w) :: given)) none [] =
      .ok (w, memberDrafts given) := by
  rw [memberDrafts, FormWord.split, StatementParts.keyText_pieces]
  change (FormWord.decode (wordJson w).draft >>= fun w =>
    FormWord.split (memberDrafts given) (some w) []) = _
  rw [decode_word]
  exact split_others w hkeys []

end FormWord

/-- No member of a form is called like one that every statement has. -/
theorem StatementForm.members_keys (form : StatementForm) :
    ∀ m ∈ form.members, m.1 ≠ "kind" ∧ m.1 ≠ "text" ∧ m.1 ≠ "span" := by
  cases form <;> simp [StatementForm.members]

section

variable {form : StatementForm}

/-- The members of a statement. -/
def Statement.given (form : StatementForm) (text : Option String) (span : Span) :
    List (String × Json) :=
  (("kind", wordJson form.formWord) :: form.members) ++
    ((text.map fun text => ("text", .string text)).toList ++ [("span", span.toJson)])

theorem Statement.toJson_eq (form : StatementForm) (text : Option String) (span : Span) :
    (Statement.mk form text span).toJson = .object (Statement.given form text span) := by
  cases text <;> simp [Statement.toJson, Statement.given]

theorem Statement.settles_given (h : form.Decodes limit) (text : Option String) (span : Span) :
    ∀ m ∈ Statement.given form text span, m.2.Settles := by
  obtain ⟨r, hfills, -⟩ := h
  intro m hm
  obtain hm | hm := List.mem_append.1 hm
  · obtain rfl | hm := List.mem_cons.1 hm
    · exact settles_string _
    · exact hfills.settles m hm
  · obtain hm | hm := List.mem_append.1 hm
    · obtain ⟨text, -, rfl⟩ := Option.map_eq_some_iff.1 (Option.mem_toList.1 hm)
      exact settles_string text
    · obtain rfl := List.mem_singleton.1 hm
      have hspan : Decodes limit Span.decode span.toJson span := span.decodes
      exact hspan.settles

/-- What every statement has is read, and the rest is set aside. -/
theorem StatementParts.read_given (h : form.Decodes limit) (text : Option String) (span : Span)
    {p : Json.Place} (hdepth : membersDepth (Statement.given form text span) ≤ p.depth) :
    StatementParts.read p (memberDrafts (Statement.given form text span)) {} =
      .ok {
        text := text.map some
        span := some span
        others := (memberDrafts (("kind", wordJson form.formWord) :: form.members)).reverse } := by
  have hsettles := Statement.settles_given h text span
  have hkeys : ∀ m ∈ ("kind", wordJson form.formWord) :: form.members,
      m.1 ≠ "text" ∧ m.1 ≠ "span" := by
    intro m hm
    obtain rfl | hm := List.mem_cons.1 hm
    · exact ⟨by simp, by simp⟩
    · exact (form.members_keys m hm).2
  rw [Statement.given, membersDepth_append, membersDepth_append] at hdepth
  obtain ⟨hothers, htail⟩ := Nat.max_le.1 hdepth
  have hspan : span.toJson.depth ≤ p.depth := (Nat.max_le.1 (Nat.max_le.1 htail).2).1
  rw [Statement.given, memberDrafts_append,
    read_others (fun m hm => hsettles m (List.mem_append_left _ hm)) hkeys hothers]
  cases text with
  | none =>
    change StatementParts.read p [(.string (pieces "span"), span.toJson.draft)] _ = _
    rw [read_span span rfl hspan, StatementParts.read, List.append_nil]
    rfl
  | some text =>
    change StatementParts.read p [(.string (pieces "text"), draft (.string text)),
      (.string (pieces "span"), span.toJson.draft)] _ = _
    rw [read_text text rfl, read_span span rfl hspan, StatementParts.read, List.append_nil]
    rfl

theorem Statement.decodes_of_form (h : ∀ limit, form.Decodes limit) (text : Option String)
    (span : Span) (limit : ℕ) :
    Decodes limit (Statement.decode limit) (Statement.mk form text span).toJson
      (.mk form text span) := by
  rw [Statement.toJson_eq]
  refine Decodes.of_succ (Nat.succ_pos _) fun n _ =>
    ⟨settles_object (Statement.settles_given (h n) text span), fun p hdepth hlimit => ?_⟩
  obtain ⟨r, hfills, hall, hform⟩ := h n
  obtain ⟨setAside, room⟩ := p
  obtain ⟨room, rfl⟩ := Nat.exists_eq_add_one_of_ne_zero (Nat.ne_zero_of_lt hdepth)
  let inner : Json.Place := { setAside, depth := room }
  have hinner : membersDepth (Statement.given form text span) ≤ room :=
    Nat.le_of_succ_le_succ hdepth
  have hread := StatementParts.read_given (h n) text span (p := inner) hinner
  have hmembers : membersDepth form.members ≤ room := by
    rw [Statement.given, membersDepth_append] at hinner
    exact (Nat.max_le.1 (Nat.max_le.1 hinner).1).2
  have hparts := hfills.members hall { inner with setAside := true } hmembers
    (Nat.le_of_succ_le_succ hlimit)
  rw [draft, Statement.decode]
  change (StatementParts.read inner (memberDrafts (Statement.given form text span)) {} >>= _) = _
  rw [hread]
  change (FormWord.split (List.reverse _) none [] >>= _) = _
  rw [List.reverse_reverse,
    FormWord.split_kind form.formWord fun m hm => (form.members_keys m hm).1]
  change (Decoder.members (form.formWord.fields (Statement.decode n)) {}
    { inner with setAside := true } (memberDrafts form.members) .closed >>= _) = _
  rw [hparts]
  change Except.ok (Statement.mk (form.formWord.form r) ((text.map some).getD none) span) = _
  rw [hform]
  cases text <;> rfl

end

theorem Json.decodes_orNull {α : Type} {decode : Decoder α} {encode : α → Json} (x : Option α)
    (h : ∀ a, Decodes limit decode (encode a) a) (hne : ∀ a, encode a ≠ .null) :
    Decodes limit (Decoder.optional decode) (orNull encode x) x := by
  cases x with
  | none => exact .optional_null
  | some a => exact (h a).optional (hne a)

mutual

theorem Statement.decodes : ∀ (s : Statement) (limit : ℕ),
    Decodes limit (Statement.decode limit) s.toJson s
  | .mk form text span => Statement.decodes_of_form (StatementForm.decodes form) text span

theorem StatementForm.decodes : ∀ (form : StatementForm) (limit : ℕ), form.Decodes limit
  | .ifThen body otherwise, limit =>
    ⟨{ body := some body, otherwise := some otherwise },
      .cons (by rfl) rfl (.list (decodes_statements body limit)) <|
      .cons (by rfl) rfl (decodes_part otherwise limit) .nil, rfl, rfl⟩
  | .evaluate whens other, limit =>
    ⟨{ whens := some whens, otherwise := some other },
      .cons (by rfl) rfl (.list (decodes_whens whens limit)) <|
      .cons (by rfl) rfl (decodes_part other limit) .nil, rfl, rfl⟩
  | .search atEnd whens, limit =>
    ⟨{ whens := some whens, otherwise := some atEnd },
      .cons (by rfl) rfl (decodes_part atEnd limit) <|
      .cons (by rfl) rfl (.list (decodes_whens whens limit)) .nil, rfl, rfl⟩
  | .alter clauses, limit =>
    ⟨{ clauses := some clauses },
      .cons (by rfl) rfl (.list (Decodes.forall₂_map clauses fun c _ => c.decodes)) .nil, rfl, rfl⟩
  | .exit, limit => ⟨{}, .nil, rfl, rfl⟩
  | .goTo targets depending, limit =>
    ⟨{ targets := some targets, depending := some depending },
      .cons (by rfl) rfl (.list (Decodes.forall₂_map targets fun n _ => n.decodes)) <|
      .cons (by rfl) rfl (.bool depending) .nil, rfl, rfl⟩
  | .nextSentence, limit => ⟨{}, .nil, rfl, rfl⟩
  | .perform range, limit =>
    ⟨{ procedure := some range.first, through := some range.through },
      .cons (by rfl) rfl range.first.decodes <|
      .cons (by rfl) rfl (Json.decodes_orNull range.through QualifiedName.decodes fun _ => nofun)
        .nil, rfl, rfl⟩
  | .loop repetition testAfter body, limit =>
    ⟨{ iteration := some repetition, testAfter := some testAfter, body := some body },
      .cons (by rfl) rfl (.word repetition) <| .cons (by rfl) rfl (.bool testAfter) <|
      .cons (by rfl) rfl (.list (decodes_statements body limit)) .nil, rfl, rfl⟩
  | .terminate ending, limit => by cases ending <;> exact ⟨{}, .nil, rfl, rfl⟩
  | .call program conditions, limit =>
    ⟨{ program := some program, conditions := some conditions },
      .cons (by rfl) rfl (Json.decodes_orNull program Decodes.string fun _ => nofun) <|
      .cons (by rfl) rfl (.list (decodes_conditions conditions limit)) .nil, rfl, rfl⟩
  | .ordinary verb conditions, limit =>
    ⟨{ verb := some verb, conditions := some conditions },
      .cons (by rfl) rfl (.word verb) <|
      .cons (by rfl) rfl (.list (decodes_conditions conditions limit)) .nil, rfl, rfl⟩

theorem decodes_statements : ∀ (l : List Statement) (limit : ℕ),
    List.Forall₂ (Decodes limit (Statement.decode limit)) (statementsJson l) l
  | [], _ => .nil
  | s :: rest, limit => .cons (s.decodes limit) (decodes_statements rest limit)

theorem decodes_part : ∀ (part : Option (List Statement)) (limit : ℕ),
    Decodes limit (Decoder.optional (Decoder.list (Statement.decode limit))) (partJson part) part
  | none, _ => .optional_null
  | some body, limit => Decodes.optional (.list (decodes_statements body limit)) nofun

theorem decodes_whens : ∀ (whens : List WhenClause) (limit : ℕ),
    List.Forall₂ (Decodes limit (WhenClause.decode (Statement.decode limit)))
      (whensJson whens) whens
  | [], _ => .nil
  | .mk _ body :: rest, limit =>
    .cons (WhenClause.decodes (.list (decodes_statements body limit))) (decodes_whens rest limit)

theorem decodes_conditions : ∀ (conditions : List ExceptionClause) (limit : ℕ),
    List.Forall₂ (Decodes limit (ExceptionClause.decode (Statement.decode limit)))
      (conditionsJson conditions) conditions
  | [], _ => .nil
  | .mk _ body :: rest, limit =>
    .cons (ExceptionClause.decodes (.list (decodes_statements body limit)))
      (decodes_conditions rest limit)

end

/-! ### Procedures and programs -/

theorem decodes_sentences (hlimit : limit ≤ maxDepth) (sentences : List SentenceText) :
    Decodes limit decodeSentences (sentencesJson sentences) sentences := by
  refine Decodes.mono ?_ hlimit
  exact .list (Decodes.forall₂_map sentences fun s _ => .list (decodes_statements s maxDepth))

theorem ParagraphText.decodes (hlimit : limit ≤ maxDepth) (p : ParagraphText) :
    Decodes limit ParagraphText.decode p.toJson p := by
  let r : ProcedureParts :=
    { name := some p.name, span := some p.span, sentences := some p.sentences }
  refine Decodes.mono (Fills.decodes r ?_ rfl _ rfl) (Nat.le_succ limit)
  exact .cons (by rfl) rfl (.string p.name) <| .cons (by rfl) rfl p.span.decodes <|
    .cons (by rfl) rfl (decodes_sentences hlimit p.sentences) .nil

theorem SectionText.decodes (hlimit : limit ≤ maxDepth) (s : SectionText) :
    Decodes limit SectionText.decode s.toJson s := by
  let r : ProcedureParts :=
    { name := some s.name, span := some s.span, sentences := some s.sentences
      paragraphs := some s.paragraphs }
  refine Decodes.mono (Fills.decodes r ?_ rfl _ rfl) (Nat.le_succ limit)
  exact .cons (by rfl) rfl (.string s.name) <| .cons (by rfl) rfl s.span.decodes <|
    .cons (by rfl) rfl (decodes_sentences hlimit s.sentences) <|
    .cons (by rfl) rfl
      (.list (Decodes.forall₂_map s.paragraphs fun p _ => p.decodes hlimit)) .nil

theorem DivisionText.decodes (hlimit : limit ≤ maxDepth) (d : DivisionText) :
    Decodes limit DivisionText.decode d.toJson d := by
  let r : DivisionParts :=
    { declaratives := some d.declaratives, sentences := some d.sentences
      paragraphs := some d.paragraphs, sections := some d.sections }
  refine Decodes.mono (Fills.decodes r ?_ rfl _ rfl) (Nat.le_succ limit)
  exact .cons (by rfl) rfl
      (.list (Decodes.forall₂_map d.declaratives fun s _ => s.decodes hlimit)) <|
    .cons (by rfl) rfl (decodes_sentences hlimit d.sentences) <|
    .cons (by rfl) rfl (.list (Decodes.forall₂_map d.paragraphs fun p _ => p.decodes hlimit)) <|
    .cons (by rfl) rfl (.list (Decodes.forall₂_map d.sections fun s _ => s.decodes hlimit)) .nil

mutual

theorem ProgramText.decodes : ∀ (p : ProgramText) {limit : ℕ}, limit ≤ maxDepth →
    Decodes limit (ProgramText.decode limit) p.toJson p
  | .mk name kind division nested, limit, hlimit => by
    refine Decodes.of_succ (by rw [ProgramText.toJson]; exact Nat.succ_pos _) fun n hn => ?_
    have hn' := hn.trans hlimit
    let r : ProgramParts :=
      { name := some name, kind := some kind, division := some division, nested := some nested }
    rw [ProgramText.toJson, ProgramText.decode]
    refine Fills.decodes r ?_ rfl _ rfl
    exact .cons (by rfl) rfl (.string name) <| .cons (by rfl) rfl (.word kind) <|
      .cons (by rfl) rfl
        (Json.decodes_orNull division (DivisionText.decodes hn') fun _ => nofun) <|
      .cons (by rfl) rfl (.list (decodes_programs nested hn')) .nil

theorem decodes_programs : ∀ (l : List ProgramText) {limit : ℕ}, limit ≤ maxDepth →
    List.Forall₂ (Decodes limit (ProgramText.decode limit)) (programsJson l) l
  | [], _, _ => .nil
  | p :: rest, _, hlimit => .cons (p.decodes hlimit) (decodes_programs rest hlimit)

end

theorem StatementTree.decodes (t : StatementTree) :
    Decodes maxDepth StatementTree.decode t.toJson t := by
  let r : TreeParts := { programs := some t.programs }
  refine Decodes.mono (Fills.decodes r ?_ rfl _ rfl) (Nat.le_succ maxDepth)
  exact .cons (by rfl) rfl (.list (decodes_programs t.programs le_rfl)) .nil

/-- **A tree that is written is read back.** No part of it is lost or changed, whatever stands in
its names and texts, as long as no more containers stand in each other than may be read. It does
not matter whether it is written on one line or over several. -/
theorem StatementTree.ofJson_toJson (t : StatementTree) (h : t.toJson.depth ≤ maxDepth) :
    StatementTree.ofJson t.toJson.compact = .ok t ∧
      StatementTree.ofJson (t.toJson.pretty 0) = .ok t :=
  ⟨decodeText_eq t.decodes h (read_compact _), decodeText_eq t.decodes h (read_pretty _)⟩

/-- A program with most of what a tree can have. -/
def mixedTree : StatementTree where
  programs := [.mk "Ä\u0007\"" .function (some
    { declaratives := [
        { name := "U", span := ⟨1, 2, 3, 4⟩, sentences := [[.mk .exit none .unknown]] }]
      paragraphs := [{ name := "P", sentences := [[
        .mk (.ifThen [.mk (.goTo [{ name := "P", qualifiers := ["U"] }] true) (some "GO") .unknown]
          (some [])) none ⟨18446744073709551615, 0, 4294967295, 0⟩,
        .mk (.evaluate [.mk ["1", "2"] [.mk (.call none [.mk .onOverflow []]) none .unknown]] none)
          none .unknown]] }] })
    [.mk "" .program none []]]

theorem ofJson_mixedTree : mixedTree.toJson.depth ≤ maxDepth ∧
    StatementTree.ofJson mixedTree.toJson.compact = .ok mixedTree ∧
      StatementTree.ofJson (mixedTree.toJson.pretty 0) = .ok mixedTree :=
  have h : mixedTree.toJson.depth ≤ maxDepth := by decide
  ⟨h, mixedTree.ofJson_toJson h⟩

end CobolFlow
