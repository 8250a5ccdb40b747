import CobolFlow.Proofs.Division.Onward
import CobolFlow.Proofs.Steps.Inside

/-!
# What the marks of blocks mean

The blocks of a sentence of the DECLARATIVES are all marked, and calls are made only from blocks
that begin with an out-of-line PERFORM. Both are true of a fresh scope and are kept by every small
step. It is different where DECLARATIVES are left: there no sentence may be open, since its later
blocks would not be marked.

## Main definitions

* `Scope.Marked` — what is true of the blocks of a scope

## Main results

* `DivisionText.marked_items` — it is true when the items of a division have been read
-/

namespace CobolFlow

/-! ### Blocks -/

namespace Graph

variable {g g' : Graph} {b : BlockId}

/-- The block belongs to the DECLARATIVES. -/
def IsDeclared (g : Graph) (b : BlockId) : Prop :=
  ∃ block, g.blocks[b]? = some block ∧ block.flags.declaratives = true

/-- The block makes a call. -/
def IsCalling (g : Graph) (b : BlockId) : Prop :=
  ∃ block, g.blocks[b]? = some block ∧ block.group.isSome

/-- What is known of blocks by their marks and by their first instructions stays, and calls are
added only where there is a PERFORM. -/
structure KeepsMarks (g g' : Graph) : Prop where
  declared : ∀ b, g.IsDeclared b → g'.IsDeclared b
  performs : ∀ b, g.Performs b → g'.Performs b
  calling : ∀ b, g'.IsCalling b → g.IsCalling b ∨ g.Performs b

theorem KeepsMarks.of_blocks_eq (h : g'.blocks = g.blocks) : g.KeepsMarks g' := by
  refine ⟨fun b hb => ?_, fun b hb => ?_, fun b hb => .inl ?_⟩
  · rwa [IsDeclared, h]
  · rwa [Performs, h]
  · rwa [IsCalling, h] at hb

theorem KeepsMarks.of_modify {c : BlockId} {f : Block → Block}
    (hblocks : g'.blocks = g.blocks.modify c f)
    (hflags : ∀ block, block.flags.declaratives = true → (f block).flags.declaratives = true)
    (hinstructions : ∀ block, block.instructions <+: (f block).instructions)
    (hgroup : g.Performs c ∨ ∀ block, (f block).group = block.group) : g.KeepsMarks g' := by
  have hat : ∀ b, g'.blocks[b]? = if c = b then g.blocks[b]?.map f else g.blocks[b]? := fun b => by
    rw [hblocks, Array.getElem?_modify]
  refine ⟨fun b ⟨block, hb, hdeclared⟩ => ?_, fun b ⟨block, hb, i, hi, hperform⟩ => ?_,
    fun b ⟨block, hb, hcalling⟩ => ?_⟩
  · rw [IsDeclared, hat, hb]
    split
    · exact ⟨_, rfl, hflags block hdeclared⟩
    · exact ⟨_, rfl, hdeclared⟩
  · rw [Performs, hat, hb]
    split
    · obtain ⟨more, hmore⟩ := hinstructions block
      refine ⟨_, rfl, i, ?_, hperform⟩
      rw [← hmore, Option.mem_def, List.head?_append, Option.mem_def.1 hi]
      rfl
    · exact ⟨_, rfl, i, hi, hperform⟩
  · rw [hat] at hb
    split at hb
    · next heq =>
      obtain ⟨block', hb', rfl⟩ := Option.map_eq_some_iff.1 hb
      refine hgroup.elim (fun hperforms => .inr (heq ▸ hperforms)) fun hgroup => .inl ?_
      exact ⟨block', hb', hgroup block' ▸ hcalling⟩
    · exact .inl ⟨block, hb, hcalling⟩

theorem keepsMarks_grow (g : Graph) (flags : BlockFlags) (tag : Option String) :
    g.KeepsMarks (g.grow flags tag) := by
  have hat : ∀ b block, g.blocks[b]? = some block → (g.grow flags tag).blocks[b]? = some block :=
    fun b block hb => by
      obtain ⟨hlt, heq⟩ := Array.getElem?_eq_some_iff.1 hb
      rw [grow, Array.getElem?_push_lt hlt, heq]
  refine ⟨fun b => Exists.imp fun block => And.imp_left (hat b block),
    fun b => Exists.imp fun block => And.imp_left (hat b block), ?_⟩
  rintro b ⟨block, hb, h⟩
  left
  rw [grow, Array.getElem?_push] at hb
  split at hb
  · cases Option.some.inj hb ▸ h
  · exact ⟨block, hb, h⟩

theorem Step.keepsMarks (h : g.Step g') : g.KeepsMarks g' := by
  cases h with
  | note roots owners nodes division compound => exact .of_blocks_eq rfl
  | write b is m hm =>
    refine .of_modify (f := fun block => { block with
      instructions := block.instructions ++ is, flags := block.flags.union m }) rfl
      (fun block h => ?_) (fun block => List.prefix_append _ _) (.inr fun _ => rfl)
    simp [BlockFlags.union, h]
  | slot c => exact .of_blocks_eq rfl
  | link b k hk =>
    exact .of_modify (f := (·.addSuccessor k)) rfl (fun _ => id) (fun _ => List.prefix_rfl)
      (.inr fun _ => rfl)
  | edge b c =>
    exact .of_modify (f := (·.addSuccessor g.slots.size)) rfl (fun _ => id)
      (fun _ => List.prefix_rfl) (.inr fun _ => rfl)
  | call b node range hb =>
    exact .of_modify (f := ({ · with group := some g.groups.size })) rfl (fun _ => id)
      (fun _ => List.prefix_rfl) (.inl hb)
  | finish => exact g.keepsMarks_grow _ _

end Graph

/-! ### Sentences -/

namespace Scope

variable {s s' : Scope}

/-- The marks mean what they should. -/
structure Marked (s : Scope) : Prop where
  declared : ∀ {j : SentenceId} {t : Sentence}, s.procedures.sentences[j]? = some t →
    t.declaratives = true → ∀ b ∈ t.blocks, s.graph.IsDeclared b
  /-- While a sentence of the DECLARATIVES is open, blocks are marked. -/
  current : ∀ j ∈ s.currentSentence, ∀ t, s.procedures.sentences[j]? = some t →
    t.declaratives = true → s.declaratives.isSome
  performs : ∀ b, s.graph.IsCalling b → s.graph.Performs b

namespace Marked

theorem started (program : Option String) (id : NodeId) : (started program id).Marked := by
  refine ⟨fun {j t} hj ht => ?_, fun j _ t hj ht => ?_, fun b ⟨block, hb, hcalling⟩ => ?_⟩
  · obtain rfl := Array.mem_singleton.1 (Array.mem_of_getElem? hj)
    exact nomatch ht
  · obtain rfl := Array.mem_singleton.1 (Array.mem_of_getElem? hj)
    exact nomatch ht
  · obtain rfl := Array.mem_singleton.1 (Array.mem_of_getElem? hb)
    exact nomatch hcalling

/-- A step by which no sentence is opened and none gets a block. -/
theorem congr (h : s.Marked) (hgraph : s.graph.KeepsMarks s'.graph)
    (hsentence : ∀ {j : SentenceId} {t : Sentence}, s'.procedures.sentences[j]? = some t →
      ∃ t', s.procedures.sentences[j]? = some t' ∧ t'.declaratives = t.declaratives ∧
        t'.blocks = t.blocks)
    (hcurrent : ∀ j ∈ s'.currentSentence,
      j ∈ s.currentSentence ∧ (s.declaratives.isSome → s'.declaratives.isSome)) : s'.Marked where
  declared hj ht b hb := by
    obtain ⟨t', hj', hdeclaratives, hblocks⟩ := hsentence hj
    exact hgraph.declared b (h.declared hj' (hdeclaratives.trans ht) b (hblocks ▸ hb))
  current j hmem t hj ht := by
    obtain ⟨t', hj', hdeclaratives, -⟩ := hsentence hj
    obtain ⟨hmem, hopen⟩ := hcurrent j hmem
    exact hopen (h.current j hmem t' hj' (hdeclaratives.trans ht))
  performs b hb := (hgraph.calling b hb).elim
    (fun hcalling => hgraph.performs b (h.performs b hcalling)) (hgraph.performs b)

/-- A new block is marked in the DECLARATIVES, and belongs to the open sentence. -/
theorem grow (h : s.Marked) (tag : Option String) : Marked { s with
    graph := s.graph.grow { declaratives := s.declaratives.isSome } tag
    procedures := s.procedures.list s.currentSentence [s.graph.size] } := by
  have hgraph := s.graph.keepsMarks_grow { declaratives := s.declaratives.isSome } tag
  refine ⟨fun hj ht b hb => ?_, fun j hmem t hj ht => ?_, fun b hb => ?_⟩
  · obtain ⟨t', hj', hdeclaratives, hblocks⟩ := Procedures.exists_of_getElem?_list hj
    obtain hb | ⟨hmem, hb⟩ := hblocks b hb
    · exact hgraph.declared b (h.declared hj' (hdeclaratives.trans ht) b hb)
    · obtain rfl := List.mem_singleton.1 hb
      have hopen := h.current _ hmem t' hj' (hdeclaratives.trans ht)
      exact ⟨_, Array.getElem?_push_size, hopen⟩
  · obtain ⟨t', hj', hdeclaratives, -⟩ := Procedures.exists_of_getElem?_list hj
    exact h.current j hmem t' hj' (hdeclaratives.trans ht)
  · exact (hgraph.calling b hb).elim
      (fun hcalling => hgraph.performs b (h.performs b hcalling)) (hgraph.performs b)

theorem openSentence (h : s.Marked) {c : Procedures} {owner : Option ProcedureId}
    (hc : c.sentences = s.procedures.sentences.push
      { id := s.procedures.sentences.size, owner, declaratives := s.declaratives.isSome }) :
    Marked { s with procedures := c, currentSentence := some s.procedures.sentences.size } := by
  refine ⟨fun {j t} hj ht => ?_, fun j hmem t hj ht => ?_, h.performs⟩
  · rw [hc, Array.getElem?_push] at hj
    split at hj
    · rw [← Option.some.inj hj]
      exact nofun
    · exact h.declared hj ht
  · obtain rfl := Option.some.inj hmem
    rw [hc, Array.getElem?_push_size] at hj
    rw [← Option.some.inj hj] at ht
    exact ht

theorem step (h : s.Marked) (hstep : s.Step s') : s'.Marked := by
  cases hstep with
  | graph hg => exact h.congr hg.keepsMarks (fun hj => ⟨_, hj, rfl, rfl⟩) fun j hj => ⟨hj, id⟩
  | aside hgraph hprocedures hdeclaratives hsentence =>
    refine h.congr (.of_blocks_eq (by rw [hgraph])) (fun hj => ⟨_, hprocedures ▸ hj, rfl, rfl⟩)
      fun j hj => ⟨?_, fun hopen => hdeclaratives ▸ hopen⟩
    exact hsentence.elim (fun heq => heq ▸ hj) fun hnone => nomatch hnone.symm.trans hj
  | grow tag => exact h.grow tag
  | declare hc =>
    exact h.congr (.of_blocks_eq rfl) (fun hj => ⟨_, hc ▸ hj, rfl, rfl⟩) fun j hj => ⟨hj, id⟩
  | openSentence hc => exact h.openSentence hc
  | entry i k =>
    refine h.congr (.of_blocks_eq rfl) (fun {j t} hj => ?_) fun j hj => ⟨hj, id⟩
    simp only [Array.getElem?_modify] at hj
    split at hj
    · obtain ⟨t', ht', rfl⟩ := Option.map_eq_some_iff.1 hj
      exact ⟨t', ht', rfl, rfl⟩
    · exact ⟨t, hj, rfl, rfl⟩
  | enterDeclaratives b =>
    exact h.congr (.of_blocks_eq rfl) (fun hj => ⟨_, hj, rfl, rfl⟩) fun j hj => ⟨hj, fun _ => rfl⟩

/-- What is made of small steps keeps the marks. -/
theorem ensures {x : Build Unit} (h : s.Marked) (hx : Within Step x) :
    Ensures x s fun _ s' => s'.Marked := fun _ s' hrun => by
  have hsteps := hx s () s' hrun
  clear hrun
  induction hsteps with
  | refl => exact h
  | tail _ hstep ih => exact ih.step hstep

/-- No sentence is open where DECLARATIVES are left. -/
theorem leaveDeclaratives (h : s.Marked) (hclosed : s.currentSentence = none) :
    Ensures Build.leaveDeclaratives s fun _ s' => s'.Marked := by
  have hroot : Ensures (Build.editProcedures Procedures.rootSection) s fun _ s₁ =>
      s₁.Marked ∧ s₁.currentSentence = none := by
    intro root s₁ hrun
    obtain ⟨c, hc, rfl⟩ := Build.exists_of_editProcedures_eq_ok hrun
    exact ⟨h.step (.declare (Build.rootSection_sentences _ _ _ hc)), hclosed⟩
  refine .bind hroot fun root s₁ ⟨h₁, hclosed₁⟩ => .get_bind (.modify_bind ?_)
  refine ensures ?_ ?_
  · exact h₁.congr (.of_blocks_eq rfl) (fun hj => ⟨_, hj, rfl, rfl⟩)
      fun j hj => nomatch hclosed₁.symm.trans hj
  · split
    · exact .bind (Build.newBlock_steps none) fun next =>
        .bind (Build.editGraph_steps (.bind (Graph.addEdge_steps _ next) fun _ => .pure _)) fun _ =>
          Build.setCurrent_steps next
    · exact .pure _

end Marked

end Scope

/-! ### Divisions -/

/-- What one part of a replay leaves, the other goes on from. -/
theorem Build.play_append_ensures {o : Options} {s : Scope} {events events' : List Notification}
    {P Q : Scope → Prop} (h : Ensures (play o events) s fun _ => P)
    (h' : ∀ s', P s' → Ensures (play o events') s' fun _ => Q) :
    Ensures (play o (events ++ events')) s fun _ => Q := by
  have happend : play o (events ++ events') = (play o events >>= fun _ => play o events') :=
    List.forM_append (f := take o)
  rw [happend]
  exact .bind h fun _ => h'

/-- **The items of a division** leave the marks right. -/
theorem DivisionText.marked_items (d : DivisionText) (o : Options) (program : Option String)
    (id : NodeId) : Ensures (Build.play o ((d.items.run (id + 1)).1.flatMap Item.events))
      (Scope.started program id) fun _ s => s.Marked := by
  have hstart := Scope.Marked.started program id
  have hplain : ∀ {items : List Item}, (∀ item ∈ items, item.IsPlain) →
      Within Scope.Step (Build.play o (items.flatMap Item.events)) := fun hitems =>
    Build.play_steps o fun e he => by
      obtain ⟨item, hitem, he⟩ := List.mem_flatMap.1 he
      exact Item.isInside_events (hitems item hitem) e he
  obtain ⟨-, hitems⟩ | ⟨-, name, span, inside, rest, hitems, hinside, hrest⟩ :=
    d.exists_items (id + 1)
  · exact hstart.ensures (hplain hitems)
  have hallows := d.allowsAll_items program (id + 1)
  rw [hitems, Plan.allowsAll_append, Plan.allowsAll_append] at hallows
  obtain ⟨⟨hbefore, hleave, -⟩, -⟩ := hallows
  obtain ⟨s₁, chs, hplay, houtline, -⟩ := (Outline.start o program id).exists_play _ hbefore
  have hclosed : s₁.currentSentence = none := houtline.closed (Bool.eq_false_of_not_eq_true hleave)
  have hinDivision := houtline.inDivision
  rw [hitems, List.flatMap_append, List.flatMap_append, List.flatMap_singleton]
  refine Build.play_append_ensures (P := Scope.Marked) (Build.play_append_ensures
    (P := fun s => s = s₁ ∧ s.Marked) ?_ ?_) fun s₂ h₂ => h₂.ensures (hplain hrest)
  · refine Ensures.and (fun _ s' hrun => ?_) ?_
    · rw [hplay] at hrun
      exact (Prod.mk.inj (Except.ok.inj hrun)).2.symm
    · refine hstart.ensures (Build.play_steps o fun e he => ?_)
      obtain ⟨item, hitem, he⟩ := List.mem_flatMap.1 he
      obtain rfl | hitem := List.mem_cons.1 hitem
      · obtain rfl := List.mem_singleton.1 he
        exact Item.isInside_enter _ _
      · exact Item.isInside_events (hinside item hitem) e he
  · rintro s ⟨rfl, hmarked⟩
    refine .bind (P := fun _ => Scope.Marked) ?_ fun _ s h => .pure h
    refine .modify_bind (.get_bind ?_)
    rw [if_pos houtline.inDivision]
    refine Scope.Marked.leaveDeclaratives (s := { s with enclosing := s.enclosing.tail }) ?_ hclosed
    exact hmarked.step (.aside rfl rfl rfl (.inl rfl))

end CobolFlow
