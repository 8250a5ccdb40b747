import CobolFlow.Build.Scope

/-!
# Drawing the jumps

When a division ends, every name in it can be looked up. NEXT SENTENCE is drawn first; then the
ALTERs are read, because they add targets to the GO TOs drawn after them.

A name that stands for no procedure, or for several, is reported and leads nowhere. So does a
procedure without sentences.
-/

namespace CobolFlow.Build

/-- Looks a procedure up, reporting a name that is unknown or ambiguous. -/
def lookup (n : QualifiedName) (span : Span) : Build (Option ProcedureId) := do
  match ← (← get).procedures.resolve n with
  | .unique p => return some p
  | .absent =>
    report { kind := .unknownProcedure n.display, span }
    return none
  | .ambiguous candidates =>
    report { kind := .ambiguousProcedure n.display candidates, span }
    return none

/-- The slot that leads into a sentence, made when there is none yet. -/
def sentenceEntry (s : SentenceId) : Build (Option SlotId) := do
  let sentence ← (← get).procedures.sentence s
  match sentence.entry, sentence.firstBlock? with
  | some slot, _ => return some slot
  | none, none => return none
  | none, some first =>
    let slot ← editGraph (Graph.newSlot first)
    editProcedures (Procedures.modifySentence s fun t => { t with entry := some slot })
    return some slot

/-- Leads a block into a sentence, unless it goes there already. -/
def linkToSentence (b : BlockId) (s : SentenceId) : Build Unit := do
  if let some slot ← sentenceEntry s then
    let _ ← editGraph (Graph.link b slot)

def resolveNextSentences (waiting : List PendingNextSentence) : Build Unit := do
  for w in waiting do
    if let some next := (← get).procedures.sentenceAfter w.sentence then
      linkToSentence w.block next

/-! ### ALTER -/

/-- The targets that ALTER statements add to simple GO TOs, in source order. -/
abbrev Alterations := List (NodeId × QualifiedName)

/-- The targets added to one GO TO. -/
def Alterations.of (a : Alterations) (n : NodeId) : List QualifiedName :=
  (a.filter (·.1 == n)).map (·.2)

/-- The simple GO TO with which a procedure begins, if it does. -/
def leadingJump (p : ProcedureId) : Build (Option NodeId) := do
  let s ← get
  let some sentence ← s.procedures.firstSentence p | return none
  let some first := (← s.procedures.sentence sentence).firstBlock? | return none
  match (← s.graph.block first).instructions.head? with
  | some i => return if i.tag = .goToSimple then some i.node else none
  | none => return none

/-- Reads one clause of an ALTER, adding to what is known of the altered GO TOs. -/
def resolveAlterClause (span : Span) (known : Alterations) (clause : AlterClause) :
    Build Alterations := do
  let some altered ← lookup clause.altered span | return known
  let some _ ← lookup clause.target span | return known
  match ← leadingJump altered with
  | some jump => return known ++ [(jump, clause.target)]
  | none =>
    let procedure ← (← get).procedures.procedure altered
    report { kind := .malformedAlter procedure.name, span }
    return known

def resolveAlters (waiting : List PendingAlter) : Build Alterations :=
  waiting.foldlM (fun known w => w.clauses.foldlM (resolveAlterClause w.span) known) []

/-! ### GO TO -/

/-- Everything that a GO TO can go to. -/
def jumpTargets (a : Alterations) (w : PendingJump) : List QualifiedName :=
  match w.jump with
  | .simple target => target :: a.of w.node
  | .conditional targets => targets

/-- Draws the edges of one GO TO, one for each procedure among its targets. -/
def resolveJump (a : Alterations) (w : PendingJump) : Build Unit := do
  let _ ← (jumpTargets a w).foldlM (fun (reached : List ProcedureId) target => do
    let some p ← lookup target w.span | return reached
    if reached.contains p then
      return reached
    else
      if let some sentence ← (← get).procedures.firstSentence p then
        linkToSentence w.block sentence
      return p :: reached) []

def resolveJumps (a : Alterations) (waiting : List PendingJump) : Build Unit :=
  waiting.forM (resolveJump a)

end CobolFlow.Build
