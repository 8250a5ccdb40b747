import CobolFlow.Proofs.Drawing.Course

/-!
# How labels are read

The label of a block is a record. What reads it first takes it out of its quotes, and then sees
fields with bars between them, groups of fields in braces, and the ports of fields in angle
brackets. A label is meant to be one group of two fields without ports: the title of its block and
the instructions, each of which ends its line.

Titles, source texts and the names of kinds come to that whatever they contain, for what means
something in a record is escaped. An instruction whose source text is not known is shown in full as
`<null>`, and this is a port.

## Main definitions

* `Dot.readLabel` — the fields that a quoted label is read as
* `Dot.caption?` — what an instruction is shown as, where something is known of it
* `Dot.Label.HasTwoFields` — the label is read as it is meant

## Main results

* `Dot.readLabel_label` — the two fields, where each instruction has a caption
* `Dot.hasTwoFields_label_iff` — a label is read as it is meant exactly then
* `Dot.Drawing.hasTwoFields_iff` — this holds of each label of a drawing
-/

namespace CobolFlow.Dot

/-! ### The text in the quotes -/

/-- What a record label is made of. -/
inductive Token
  | bar
  | openBrace
  | closeBrace
  | openAngle
  | closeAngle
  /-- A character that stands for itself. -/
  | char (c : Char)
  /-- A control that a backslash begins, such as the end of a line. -/
  | control (c : Char)
deriving DecidableEq

/-- What a character is that stands by itself. -/
def Token.ofPlain : Char → Token
  | '|' => .bar
  | '\x7b' => .openBrace
  | '\x7d' => .closeBrace
  | '<' => .openAngle
  | '>' => .closeAngle
  | c => .char c

/-- What a character is behind a backslash. -/
def Token.ofEscaped (c : Char) : Token :=
  match c with
  | '\\' | '"' | '|' | '<' | '>' | '\x7b' | '\x7d' => .char c
  | _ => .control c

/-- A text up to the quote that ends it, and what comes after. -/
def readQuoted : List Char → Option (List Token × List Char)
  | [] => none
  | '"' :: rest => some ([], rest)
  | ['\\'] => none
  | '\\' :: c :: rest => (readQuoted rest).map fun r => (.ofEscaped c :: r.1, r.2)
  | c :: rest => (readQuoted rest).map fun r => (.ofPlain c :: r.1, r.2)

/-! ### The fields -/

inductive Field
  /-- A text, with its port if it has one. -/
  | text (port : Option (List Token)) (content : List Token)
  /-- Fields beside each other, in braces. -/
  | group (fields : List Field)

/-- A field of which a part has been read. -/
inductive Unfinished
  | text (port : Option (List Token)) (content : List Token)
  /-- Its port is not closed. -/
  | openPort (name content : List Token)
  | group (fields : List Field)

/-- The field if nothing more belongs to it. -/
def Unfinished.field? : Unfinished → Option Field
  | .text port content => some (.text port content)
  | .openPort .. => none
  | .group fields => some (.group fields)

/-- Where the reading of a record stands. -/
structure Reader where
  /-- The fields before the groups that are open, the innermost group first. -/
  outer : List (List Field) := []
  /-- The fields before this one in its group. -/
  before : List Field := []
  current : Unfinished := .text none []

def Reader.step (r : Reader) : Token → Option Reader
  | .openBrace =>
    match r.current with
    | .text none [] => some { outer := r.before :: r.outer }
    | _ => none
  | .closeBrace =>
    match r.outer with
    | [] => none
    | before :: outer =>
      r.current.field?.map fun field => { outer, before, current := .group (r.before ++ [field]) }
  | .bar =>
    r.current.field?.map fun field =>
      { r with before := r.before ++ [field], current := .text none [] }
  | .openAngle =>
    match r.current with
    | .text none content => some { r with current := .openPort [] content }
    | _ => none
  | .closeAngle =>
    match r.current with
    | .openPort name content => some { r with current := .text (some name) content }
    | _ => none
  | token =>
    match r.current with
    | .text port content => some { r with current := .text port (content ++ [token]) }
    | .openPort name content => some { r with current := .openPort (name ++ [token]) content }
    | .group _ => none

/-- The fields of a record that ends here. Its groups and ports have to be closed. -/
def Reader.fields? (r : Reader) : Option (List Field) :=
  match r.outer with
  | [] => r.current.field?.map fun field => r.before ++ [field]
  | _ :: _ => none

/-- The fields of a record. -/
def readRecord (tokens : List Token) : Option (List Field) :=
  (tokens.foldlM Reader.step {}).bind Reader.fields?

/-- The fields that a label is read as. The text has to be one quoted text. -/
def readLabel (s : String) : Option (List Field) :=
  match s.toList with
  | '"' :: rest =>
    match readQuoted rest with
    | some (tokens, []) => readRecord tokens
    | _ => none
  | _ => none

/-! ### What is escaped is a text -/

/-- The characters are read as the tokens wherever they stand in a quoted text. -/
def Spells (cs : List Char) (tokens : List Token) : Prop :=
  ∀ rest, readQuoted (cs ++ rest) = (readQuoted rest).map fun r => (tokens ++ r.1, r.2)

namespace Spells

variable {cs cs' : List Char} {tokens tokens' : List Token}

theorem nil : Spells [] [] := fun _ => (congrFun Option.map_id _).symm

theorem append (h : Spells cs tokens) (h' : Spells cs' tokens') :
    Spells (cs ++ cs') (tokens ++ tokens') := by
  intro rest
  rw [List.append_assoc, h, h', Option.map_map]
  simp only [Function.comp_def, List.append_assoc]

theorem flatMap {α : Type} {l : List α} {spell : α → List Char} {read : α → List Token}
    (h : ∀ a ∈ l, Spells (spell a) (read a)) : Spells (l.flatMap spell) (l.flatMap read) := by
  induction l with
  | nil => exact .nil
  | cons a l ih =>
    exact (h a List.mem_cons_self).append (ih fun b hb => h b (List.mem_cons_of_mem a hb))

theorem escaped (c : Char) : Spells ['\\', c] [.ofEscaped c] := fun _ => rfl

theorem plain {c : Char} (hquote : c ≠ '"') (hslash : c ≠ '\\') : Spells [c] [.ofPlain c] := by
  intro rest
  rw [List.singleton_append, readQuoted.eq_def]
  split <;> simp_all

end Spells

/-- What is seen of a text: its line breaks are blanks. -/
def shown (s : String) : List Token :=
  s.toList.map fun c => .char (if c = '\n' ∨ c = '\r' then ' ' else c)

theorem spells_escapeChar (c : Char) :
    Spells (escapeChar c) [.char (if c = '\n' ∨ c = '\r' then ' ' else c)] := by
  unfold escapeChar
  split
  case h_8 | h_9 => exact .plain (by decide) (by decide)
  case h_10 hslash hquote hbar hless hgreater hopen hclose hnewLine hreturn =>
    have hplain : Token.ofPlain c = .char c := by
      unfold Token.ofPlain
      split <;> simp_all
    rw [if_neg (not_or.2 ⟨hnewLine, hreturn⟩), ← hplain]
    exact .plain hquote hslash
  all_goals exact .escaped _

/-- **What is escaped is read as the text that it is**, whatever characters it has. -/
theorem spells_escape (s : String) : Spells (escape s).toList (shown s) := by
  rw [escape, String.toList_ofList, shown, List.map_eq_flatMap]
  exact .flatMap fun c _ => spells_escapeChar c

/-! ### What labels are made of -/

theorem escape_append (s s' : String) : escape (s ++ s') = escape s ++ escape s' := by
  rw [escape, String.toList_append, List.flatMap_append, String.ofList_append, escape, escape]

/-- What a block is called besides its procedure. -/
def designation (b : Block) : String :=
  if b.flags.start then "START"
  else if b.flags.finish then "END"
  else BlockId.display b.id

/-- The title of a block before it is escaped. -/
def heading (b : Block) : String :=
  match b.tag with
  | some tag =>
    if b.flags.start || tag == rootSectionName then designation b
    else Text.upper tag ++ ". " ++ designation b
  | none => designation b

theorem escapeChar_of_isDigit {c : Char} (h : c.isDigit = true) : escapeChar c = [c] := by
  unfold escapeChar
  split <;> first | rfl | simp [Char.isDigit] at h

theorem escape_display (b : BlockId) : escape (BlockId.display b) = BlockId.display b := by
  have hdigits : escape (toString b) = toString b := by
    rw [Nat.toString_eq_ofList_toDigits, escape, String.toList_ofList]
    have hplain : ∀ c ∈ Nat.toDigits 10 b, escapeChar c = [c] := fun c hc =>
      escapeChar_of_isDigit (Nat.isDigit_of_mem_toDigits (by decide) le_rfl hc)
    rw [List.flatMap_congr hplain, List.flatMap_singleton']
  change escape ("Block" ++ toString b) = "Block" ++ toString b
  rw [escape_append, hdigits]
  rfl

theorem escape_designation (b : Block) : escape (designation b) = designation b := by
  unfold designation
  split
  · rfl
  · split
    · rfl
    · exact escape_display b.id

/-- Nothing in a title means something else. -/
theorem title_eq (b : Block) : title b = escape (heading b) := by
  unfold heading
  cases htag : b.tag with
  | none =>
    rw [escape_designation, title, htag]
    rfl
  | some tag =>
    have htitle : title b = if b.flags.start || tag == rootSectionName then designation b
        else escape (Text.upper tag) ++ ". " ++ designation b := by
      rw [title, htag]
      rfl
    rw [htitle, apply_ite escape, escape_append, escape_append, escape_designation]
    rfl

/-- What an instruction is shown as, where something is known of it. -/
def caption? (g : Graph) (full : Bool) (i : Instruction) : Option String :=
  if full then (g.nodeInfo i.node).bind (·.text) else some i.tag.name

theorem escape_name (t : NodeTag) : escape t.name = t.name := by
  cases t with
  | terminate e => cases e <;> rfl
  | exception e => cases e <;> rfl
  | ordinary e => cases e <;> rfl
  | _ => rfl

theorem instructionText_eq (g : Graph) (full : Bool) (i : Instruction) :
    instructionText g full i = ((caption? g full i).map escape).getD "<null>" := by
  cases full with
  | false => exact (escape_name i.tag).symm
  | true =>
    rw [instructionText, caption?, if_pos rfl, if_pos rfl]
    cases (g.nodeInfo i.node).bind (·.text) <;> rfl

/-- What the line of an instruction is read as. -/
def lineTokens : Option String → List Token
  | some caption => shown caption ++ [.control 'l']
  | none => [.openAngle, .char 'n', .char 'u', .char 'l', .char 'l', .closeAngle, .control 'l']

/-- An instruction without a caption is shown with a port. -/
theorem spells_line (g : Graph) (full : Bool) (i : Instruction) :
    Spells (instructionText g full i ++ "\\l").toList (lineTokens (caption? g full i)) := by
  rw [instructionText_eq, String.toList_append]
  cases caption? g full i with
  | none =>
    intro rest
    simp [readQuoted, Token.ofPlain, Token.ofEscaped, lineTokens, Function.comp_def]
  | some caption => exact (spells_escape caption).append fun _ => rfl

/-- What a label is read as, piece by piece. -/
def labelTokens (g : Graph) (full : Bool) (b : Block) : List Token :=
  [.openBrace] ++ shown (heading b) ++ [.bar] ++
    (b.instructions.map (caption? g full)).flatMap lineTokens ++ [.closeBrace]

theorem spells_label (g : Graph) (full : Bool) (b : Block) :
    Spells (label g full b).render.toList (labelTokens g full b) := by
  have hlines : Spells (String.join ((label g full b).lines.map (· ++ "\\l"))).toList
      ((b.instructions.map (caption? g full)).flatMap lineTokens) := by
    rw [label, List.map_map, String.toList_join, List.flatMap_map, List.flatMap_map]
    exact .flatMap fun i _ => spells_line g full i
  simp only [Label.render, String.toList_append]
  refine .append (.append (.append (.append ?_ ?_) ?_) hlines) ?_
  · exact fun _ => rfl
  · rw [label, title_eq]
    exact spells_escape _
  · exact fun _ => rfl
  · exact fun _ => rfl

/-- A label that is put in quotes is one quoted text. -/
theorem readLabel_quoted (g : Graph) (full : Bool) (b : Block) :
    readLabel ("\"" ++ (label g full b).render ++ "\"") = readRecord (labelTokens g full b) := by
  have hquoted : readQuoted ((label g full b).render.toList ++ ['"']) =
      some (labelTokens g full b, []) := by
    rw [spells_label]
    exact congrArg some (Prod.ext (List.append_nil _) rfl)
  have htext : ("\"" ++ (label g full b).render ++ "\"").toList =
      '"' :: ((label g full b).render.toList ++ ['"']) := by
    simp only [String.toList_append]
    rfl
  simp only [readLabel, htext, hquoted]

/-! ### The reading of a record -/

section Reading

variable {r : Reader} {outer : List (List Field)} {before : List Field}
  {port : Option (List Token)} {content tokens : List Token} {captions : List (Option String)}

/-- The token belongs to a text wherever it stands. -/
def Token.IsText : Token → Prop
  | .char _ | .control _ => True
  | _ => False

theorem isText_shown (s : String) : ∀ t ∈ shown s, t.IsText := by
  rw [shown]
  exact List.forall_mem_map.2 fun _ _ => trivial

theorem isText_line (caption : String) : ∀ t ∈ lineTokens (some caption), t.IsText :=
  List.forall_mem_append.2 ⟨isText_shown caption, List.forall_mem_singleton.2 trivial⟩

namespace Reader

theorem foldlM_text (htext : ∀ t ∈ tokens, t.IsText) :
    tokens.foldlM step { outer, before, current := .text port content } =
      some { outer, before, current := .text port (content ++ tokens) } := by
  induction tokens generalizing content with
  | nil =>
    rw [List.append_nil]
    rfl
  | cons t tokens ih =>
    obtain ⟨ht, htext⟩ := List.forall_mem_cons.1 htext
    have hstep : step { outer, before, current := .text port content } t =
        some { outer, before, current := .text port (content ++ [t]) } := by
      cases t <;> first | exact ht.elim | rfl
    rw [List.foldlM_cons, hstep, Option.bind_eq_bind, Option.bind_some, ih htext,
      List.append_assoc, List.singleton_append]

/-- Lines with captions continue the text of a field. -/
theorem foldlM_lines (hcaptions : none ∉ captions) :
    (captions.flatMap lineTokens).foldlM step { outer, before, current := .text port content } =
      some { outer, before, current := .text port (content ++ captions.flatMap lineTokens) } := by
  refine foldlM_text fun t ht => ?_
  obtain ⟨caption?, hmem, ht⟩ := List.mem_flatMap.1 ht
  cases caption? with
  | none => exact absurd hmem hcaptions
  | some caption => exact isText_line caption t ht

/-- A line without a caption gives the field a port, which it may not have already. -/
theorem exists_port
    (h : (lineTokens none).foldlM step { outer, before, current := .text port content } = some r) :
    ∃ name content', r = { outer, before, current := .text (some name) content' } := by
  cases port with
  | none => exact ⟨_, _, (Option.some.inj h).symm⟩
  | some name => simp [lineTokens, step] at h

/-- Once a line has no caption, the field has a port if it can be read at all. -/
theorem exists_port_of_lines
    (h : (captions.flatMap lineTokens).foldlM step
      { outer, before, current := .text port content } = some r)
    (hport : port ≠ none ∨ none ∈ captions) :
    ∃ name content', r = { outer, before, current := .text (some name) content' } := by
  induction captions generalizing port content with
  | nil =>
    obtain ⟨name, rfl⟩ := Option.ne_none_iff_exists'.1 (hport.resolve_right List.not_mem_nil)
    exact ⟨name, content, (Option.some.inj h).symm⟩
  | cons caption? captions ih =>
    rw [List.flatMap_cons, List.foldlM_append] at h
    obtain ⟨mid, hline, h⟩ := Option.bind_eq_some_iff.1 h
    cases caption? with
    | none =>
      obtain ⟨name, content', rfl⟩ := exists_port hline
      exact ih h (.inl (Option.some_ne_none name))
    | some caption =>
      rw [foldlM_text (isText_line caption)] at hline
      obtain rfl := Option.some.inj hline
      exact ih h (hport.imp_right fun hmem => by simpa using hmem)

end Reader

end Reading

/-! ### What a label is read as -/

variable {g : Graph} {full : Bool} {b : Block}

/-- The label, in quotes, is read as one group of two fields without ports. -/
def Label.HasTwoFields (l : Label) : Prop :=
  ∃ title lines, readLabel ("\"" ++ l.render ++ "\"") =
    some [.group [.text none title, .text none lines]]

/-- What stands before the instructions begins a group, and the title is its first field. -/
theorem readRecord_labelTokens : readRecord (labelTokens g full b) =
    (((b.instructions.map (caption? g full)).flatMap lineTokens).foldlM Reader.step
      { outer := [[]], before := [.text none (shown (heading b))] }).bind fun r =>
        (r.step .closeBrace).bind Reader.fields? := by
  have htitle : ([Token.openBrace] ++ shown (heading b) ++ [Token.bar]).foldlM Reader.step {} =
      some { outer := [[]], before := [.text none (shown (heading b))] } := by
    rw [List.foldlM_append, List.foldlM_append]
    change (((shown (heading b)).foldlM Reader.step
      { outer := [[]], before := [], current := .text none [] }).bind _) = _
    rw [Reader.foldlM_text (isText_shown _)]
    rfl
  rw [readRecord, labelTokens, List.foldlM_append, List.foldlM_append, htitle, Option.bind_eq_bind,
    Option.bind_some, Option.bind_assoc]
  refine congrArg _ (funext fun r => ?_)
  rw [List.foldlM_cons, Option.bind_eq_bind, Option.bind_assoc]
  rfl

/-- **Where each instruction has a caption, the two fields are the title and the lines**, with all
their characters but for line breaks. -/
theorem readLabel_label (h : ∀ i ∈ b.instructions, caption? g full i ≠ none) :
    readLabel ("\"" ++ (label g full b).render ++ "\"") =
      some [.group [.text none (shown (heading b)),
        .text none ((b.instructions.map (caption? g full)).flatMap lineTokens)]] := by
  have hcaptions : none ∉ b.instructions.map (caption? g full) := by
    rw [List.mem_map]
    rintro ⟨i, hi, hnone⟩
    exact h i hi hnone
  rw [readLabel_quoted, readRecord_labelTokens, Reader.foldlM_lines hcaptions]
  rfl

/-- **A label is read as two fields without ports exactly if each instruction has a caption.** -/
theorem hasTwoFields_label_iff : (label g full b).HasTwoFields ↔
    ∀ i ∈ b.instructions, caption? g full i ≠ none := by
  refine ⟨fun ⟨title, lines, hread⟩ i hi hnone => ?_, fun h => ⟨_, _, readLabel_label h⟩⟩
  rw [readLabel_quoted, readRecord_labelTokens] at hread
  obtain ⟨r, hlines, hread⟩ := Option.bind_eq_some_iff.1 hread
  obtain ⟨name, content, rfl⟩ := Reader.exists_port_of_lines hlines
    (.inr (List.mem_map.2 ⟨i, hi, hnone⟩))
  cases hread

example : readLabel "\"\x7bSTART|<null>\\l\x7d\"" = some
    [.group [.text none (shown "START"), .text (some (shown "null")) [.control 'l']]] := by
  rfl

/-! ### The labels of a drawing -/

/-- If the statement declares a block, it is with the label of that block. -/
def Statement.Labels (g : Graph) (full : Bool) : Statement → Prop
  | .record b l => ∃ block, g.blocks[b]? = some block ∧ l = label g full block
  | _ => True

section Course

variable {drawn : List GroupId} {block : Block} {opened : Option GroupId}
  {blocks inside : List Block} {wrap : List Statement → List Statement} {part : Part}

theorem Step.labels_wrap (h : Step g drawn block opened inside wrap) {body : List Statement}
    (hbody : ∀ s ∈ allWithin body, s.Labels g full) :
    ∀ s ∈ allWithin (wrap body), s.Labels g full := by
  cases h with
  | plain => exact hbody
  | again =>
    simpa [allWithin_append, allWithin, Statement.within, or_imp, forall_and,
      Statement.Labels] using hbody
  | empty | fill =>
    simpa [allWithin, Statement.within, or_imp, forall_and, Statement.Labels] using hbody

/-- The members drawn inside are blocks of the graph. -/
theorem Step.stored_inside (h : Step g drawn block opened inside wrap) (hg : g.Checked) :
    ∀ b ∈ inside, g.blocks[b.id]? = some b := by
  cases h with
  | plain | again | empty => simp
  | fill _ hgroup _ hfirst hmembers _ =>
    obtain ⟨members, hmembers', hstored⟩ := exists_connectedMembers_eq_ok hg _
      (hg.member_lt hgroup _ (List.mem_of_head? hfirst))
    obtain rfl := Except.ok.inj (hmembers.symm.trans hmembers')
    exact hstored

theorem Draws.labels (h : Draws g full drawn blocks part) (hg : g.Checked)
    (hblocks : ∀ b ∈ blocks, g.blocks[b.id]? = some b) :
    ∀ s ∈ allWithin (part.statements ++ part.edges), s.Labels g full := by
  induction h with
  | nil => simp [allWithin]
  | cons hnext hstep hinner _ ihInner ih =>
    obtain ⟨hblock, hrest⟩ := List.forall_mem_cons.1 hblocks
    have hinside := hstep.labels_wrap (ihInner (hstep.stored_inside hg))
    have hafter := ih hrest
    simp only [allWithin_append, List.forall_mem_append] at hafter
    simp only [allWithin_append, List.forall_mem_append, List.cons_append, allWithin,
      Statement.within, List.nil_append, List.forall_mem_cons]
    refine ⟨⟨_, hblock, rfl⟩, ⟨hinside, hafter.1⟩, ?_, hafter.2⟩
    rw [allWithin_eq_self (List.forall_mem_map.2 fun _ _ => rfl)]
    exact List.forall_mem_map.2 fun _ _ => trivial

end Course

/-- **A label in a drawing is read as two fields without ports exactly if each instruction of its
block has a caption**, in all drawings of graphs without defects and with either kind of caption. -/
theorem Drawing.hasTwoFields_iff {statements : List Statement} {b : BlockId} {l : Label}
    (h : Drawing g full statements) (hg : g.Checked) (hs : .record b l ∈ allWithin statements) :
    ∃ block, g.blocks[b]? = some block ∧
      (l.HasTwoFields ↔ ∀ i ∈ block.instructions, caption? g full i ≠ none) := by
  obtain ⟨blocks, part, hreached, hdraws, rfl⟩ := h
  obtain ⟨order, hreached', hcovers, -⟩ := hg.exists_reachedBlocks
  obtain rfl := Except.ok.inj (hreached.symm.trans hreached')
  obtain ⟨block, hblock, rfl⟩ := hdraws.labels hg
    (fun b hb => hcovers.stored b (List.mem_of_mem_filter hb)) _ hs
  exact ⟨block, hblock, hasTwoFields_label_iff⟩

end CobolFlow.Dot
