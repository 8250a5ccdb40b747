import CobolFlow.Proofs.Calls.Aside
import CobolFlow.Proofs.Division.Marks
import CobolFlow.Proofs.Structured
import CobolFlow.Proofs.Writing.Finished

/-!
# Control never dangles

From every block that control may come to from a root, an edge leads on, unless the block ends the
graph, was ended by a statement, or belongs to the DECLARATIVES. This holds of every tree, in every
mode and for both lowerings.

The proof follows the build. In the draft, control is carried on within each sentence, and from its
end into what it falls into; only the sentences of the DECLARATIVES are excepted. Jumps lead to the
beginnings of sentences. What is captured stands aside, and where it is spliced in, control is
carried on as it was at the originals.

## Main definitions

* `Graph.NeverDangles` — control is carried on from wherever it comes to from the roots

## Main results

* `Draft.carries` — control is carried on in a draft, once the jumps are drawn
* `StatementTree.build_neverDangles` — no graph of any tree lets control dangle
-/

namespace CobolFlow

open Scope

/-- From wherever control comes to from the roots an edge leads to a block, unless the program ends
there, or DECLARATIVES do. -/
def Graph.NeverDangles (g : Graph) : Prop :=
  ∀ r ∈ g.roots, ∀ b, g.chart.Reaches r b → ∃ block, g.blocks[b]? = some block ∧
    (block.flags.finish = true ∨ block.flags.ending = true ∨ block.flags.declaratives = true ∨
      ∃ x, g.Leads b x ∧ x < g.size)

namespace Graph

variable {g : Graph} {aside live : BlockId → Prop}

/-- Where control is carried on it never dangles. -/
theorem Carries.neverDangles (h : g.Carries aside (fun _ => False) live) : g.NeverDangles := by
  intro r hr b hreach
  obtain ⟨hlive, haside⟩ := Chart.Reaches.mem (P := fun b => live b ∧ ¬ aside b) hreach
    (h.roots r hr) fun b hb x hx => ⟨h.next hb.1 hx, h.outside hb.2 hx⟩
  obtain ⟨block, hblock⟩ := getElem?_eq_some_of_lt (h.lt hlive)
  refine ⟨block, hblock, ?_⟩
  have hflags : (g.chart b).flags = block.flags := by
    rw [chart_of_getElem? hblock]
    rfl
  cases hnext : (g.chart b).next with
  | nil =>
    obtain ⟨-, hends⟩ := h.leads hlive haside id hnext
    rw [hflags] at hends
    exact hends.imp_right fun hends => hends.imp_right .inl
  | cons x rest =>
    have hx : x ∈ (g.chart b).next := by simp [hnext]
    exact .inr (.inr (.inr ⟨x, leads_iff_mem_next.2 hx, h.tight.next_lt hx⟩))

end Graph

/-! ### Drafts -/

namespace Draft

variable {o : Options} {s s₁ : Scope} {p : Plan} {chs : List Chapter} {i b x : ℕ} {c : Chapter}
  {ps : List Problem}

theorem live_start (h : Draft o s p chs) (hi : chs[i]? = some c) : Live chs c.start :=
  .inr ⟨i, c, hi, (h.drawn c (List.mem_of_getElem? hi)).live_start⟩

/-- A sentence begins where control may come to. -/
theorem live_firstBlock (h : Draft o s p chs) {j : SentenceId}
    (hj : s.procedures.firstBlock? j = some b) : Live chs b := by
  obtain ⟨t, ht, hfirst⟩ := Option.bind_eq_some_iff.1 hj
  obtain ⟨c, hc, hsentence, -⟩ := h.exists_chapter ht
  obtain ⟨i, hi⟩ := List.getElem?_of_mem hc
  obtain rfl := Option.some.inj (hj.symm.trans (h.firstBlock?_eq hc hsentence))
  exact h.live_start hi

/-- From its end, control falls from a chapter to the beginnings of others and to the end. -/
theorem live_ways (h : Draft o s p chs) (hx : x ∈ Chapter.ways chs p.falls i) : Live chs x := by
  obtain hx | hx := List.mem_append.1 hx
  · obtain ⟨e, -, he⟩ := List.mem_filterMap.1 hx
    split at he
    · obtain ⟨c, hc, rfl⟩ := Option.map_eq_some_iff.1 he
      exact h.live_start hc
    · exact nomatch he
  · split at hx
    · exact .inl (List.mem_singleton.1 hx)
    · exact nomatch hx

/-- No edge leads from where control may come to anywhere else. -/
theorem next_live (h : Draft o s p chs) (hb : Live chs b) (hx : x ∈ (s.graph.chart b).next) :
    Live chs x := by
  obtain rfl | ⟨i, c, hi, hlive⟩ := hb
  · rw [h.finish] at hx
    exact nomatch hx
  rw [h.chart hi b hlive.1] at hx
  split at hx
  · exact h.live_ways hx
  · exact .inr ⟨i, c, hi, (h.drawn c (List.mem_of_getElem? hi)).live_next hlive hx⟩

theorem live_of_jumps (h : Draft o s p chs) (hx : s.Jumps b x) : Live chs x := by
  obtain ⟨w, -, -, hfirst⟩ | ⟨w, -, -, n, -, hentrance⟩ := hx
  · exact h.live_firstBlock hfirst
  · obtain ⟨j, -, hfirst⟩ := Option.bind_eq_some_iff.1 hentrance
    exact h.live_firstBlock hfirst

/-- A call is made from a block that holds an out-of-line PERFORM and nothing else. -/
theorem exists_nodes_of_group (hmarked : s.Marked)
    (hcloses : ∀ i ∈ (s.graph.chart b).nodes.dropLast, i.tag.closes = false)
    (hb : (s.graph.chart b).group.isSome) :
    ∃ i, (s.graph.chart b).nodes = [i] ∧ i.tag = .perform := by
  have hlt := Graph.Carries.lt_of_isSome hb
  obtain ⟨block, hblock⟩ := Graph.getElem?_eq_some_of_lt hlt
  rw [Graph.chart_of_getElem? hblock] at hb hcloses ⊢
  obtain ⟨block', hblock', i, hi, htag⟩ := hmarked.performs b ⟨block, hblock, hb⟩
  obtain rfl := Option.some.inj (hblock.symm.trans hblock')
  obtain ⟨rest, hnodes⟩ := List.head?_eq_some_iff.1 hi
  have hnodes : (block.spot s.graph.slots).nodes = i :: rest := hnodes
  rw [hnodes] at hcloses ⊢
  have hrest : rest = [] := by
    by_contra hne
    have hlast := hcloses i (by rw [List.dropLast_cons_of_ne_nil hne]; exact List.mem_cons_self)
    rw [htag] at hlast
    exact nomatch hlast
  exact ⟨i, hrest ▸ rfl, htag⟩

theorem ending_of_group (hmarked : s.Marked) (hshaped : (s.graph.chart b).Shaped)
    (hb : (s.graph.chart b).group.isSome) : (s.graph.chart b).flags.ending = false := by
  obtain ⟨i, hnodes, htag⟩ := exists_nodes_of_group hmarked hshaped.closes hb
  rw [← Bool.not_eq_true, hshaped.ending, hnodes]
  rintro ⟨i', hi', hleaves⟩
  obtain rfl : i = i' := Option.some.inj hi'
  rw [htag] at hleaves
  exact nomatch hleaves

/-- No call is made from the last block of a chapter. -/
theorem group_stop (h : Draft o s p chs) (hi : chs[i]? = some c) :
    (s.graph.chart c.stop).group = none := by
  by_contra hne
  obtain ⟨k, hk⟩ := Option.ne_none_iff_exists'.1 hne
  obtain ⟨call, hk⟩ := h.group_eq_some_iff.1 hk
  obtain ⟨c', hc', hhas, hlt⟩ := h.exists_of_mem_calls (List.mem_of_getElem? hk)
  have hc := List.mem_of_getElem? hi
  obtain rfl := h.eq_of_mem_of_has hc hc' (h.drawn c hc).has_stop hhas
  exact hlt.false

/-- Control that comes to the end of a chapter falls on, or ends in the DECLARATIVES. -/
theorem declaratives_of_ways (h : Draft o s p chs) (hmarked : s.Marked)
    (hfalls : ∀ {i : ℕ} {q : Passage}, p.passages[i]? = some q → i + 1 < p.passages.length →
      (∃ k, (i, k) ∈ p.falls) ∨ p.catalog.Exempts q.sentence)
    (hi : chs[i]? = some c) (hways : Chapter.ways chs p.falls i = []) :
    (s.graph.chart c.stop).flags.declaratives = true := by
  obtain ⟨honto, hlast⟩ := List.append_eq_nil_iff.1 hways
  have hlength : p.passages.length = chs.length := by rw [← h.passages, List.length_map]
  have hlt : i < chs.length := (List.getElem?_eq_some_iff.1 hi).1
  have hnot : i + 1 ≠ chs.length := fun heq => by
    rw [if_pos heq] at hlast
    exact nomatch hlast
  have hpassage : p.passages[i]? = some c.toPassage := by
    rw [← h.passages, List.getElem?_map, hi]
    rfl
  obtain ⟨k, hk⟩ | ⟨j, hj, t, ht, hdeclaratives⟩ := hfalls hpassage (by omega)
  · obtain ⟨c', hc'⟩ : ∃ c', chs[k]? = some c' :=
      ⟨_, List.getElem?_eq_getElem (h.falls_lt _ hk).2⟩
    have hmem : c'.start ∈ Chapter.onto chs p.falls i :=
      List.mem_filterMap.2 ⟨_, hk, by simp [hc']⟩
    rw [honto] at hmem
    exact nomatch hmem
  · have hc := List.mem_of_getElem? hi
    obtain ⟨t', ht', hblocks, -⟩ := h.sentence c hc j hj
    have herase := congrArg (fun c : Procedures => c.sentences[j]?) h.catalog
    rw [ht] at herase
    obtain ⟨t'', ht'', rfl⟩ := Option.map_eq_some_iff.1 (Array.getElem?_map.symm.trans herase)
    obtain rfl := Option.some.inj (ht'.symm.trans ht'')
    have hdrawn := h.drawn c hc
    obtain ⟨block, hblock, hflag⟩ := hmarked.declared ht' hdeclaratives c.stop
      (hblocks ▸ hdrawn.mem_blocks.2 hdrawn.has_stop)
    rw [Graph.chart_of_getElem? hblock]
    exact hflag

/-- Where control comes to an end in a draft. -/
theorem leads (h : Draft o s p chs) (hmarked : s.Marked) (hshaped : ∀ b, (s.graph.chart b).Shaped)
    (hfalls : ∀ {i : ℕ} {q : Passage}, p.passages[i]? = some q → i + 1 < p.passages.length →
      (∃ k, (i, k) ∈ p.falls) ∨ p.catalog.Exempts q.sentence)
    (hb : Live chs b) (hnext : (s.graph.chart b).next = []) :
    (s.graph.chart b).group = none ∧ ((s.graph.chart b).flags.finish = true ∨
      (s.graph.chart b).flags.ending = true ∨ (s.graph.chart b).flags.declaratives = true) := by
  obtain rfl | ⟨i, c, hi, hlive⟩ := hb
  · rw [h.finish]
    exact ⟨rfl, .inl rfl⟩
  by_cases hstop : b = c.stop
  · subst hstop
    refine ⟨h.group_stop hi, .inr (.inr (h.declaratives_of_ways hmarked hfalls hi ?_))⟩
    rw [h.chart hi _ hlive.1, if_pos rfl] at hnext
    exact hnext
  · have hspot : s.graph.chart b = c.last.chart b := by rw [h.chart hi _ hlive.1, if_neg hstop]
    have hending : (s.graph.chart b).flags.ending = true := by
      have hdrawn := h.drawn c (List.mem_of_getElem? hi)
      obtain hfinish | hending := (hdrawn.stops_iff hlive hstop).2 (hspot ▸ hnext)
      · have hcalm := hdrawn.fragment.calm b (hdrawn.between_iff.2 hlive.1)
        exact nomatch hcalm.finish.symm.trans hfinish
      · exact hspot ▸ hending
    refine ⟨?_, .inr (.inl hending)⟩
    by_contra hne
    have hnot := ending_of_group hmarked (hshaped b) (Option.isSome_iff_ne_none.2 hne)
    exact nomatch hending.symm.trans hnot

/-- **Control is carried on** in a draft, once the jumps are drawn. -/
theorem carries (h : Draft o s p chs) (hmarked : s.Marked)
    (hshaped : ∀ b, (s.graph.chart b).Shaped)
    (hfalls : ∀ {i : ℕ} {q : Passage}, p.passages[i]? = some q → i + 1 < p.passages.length →
      (∃ k, (i, k) ∈ p.falls) ∨ p.catalog.Exempts q.sentence)
    (hl : Links s s₁ s.Jumps ps) :
    s₁.graph.Carries (fun _ => False) (fun _ => False) (Live chs) := by
  have hchart : ∀ b, (s₁.graph.chart b).group = (s.graph.chart b).group ∧
      (s₁.graph.chart b).flags = (s.graph.chart b).flags := fun b => by
    obtain ⟨more, hchart, -⟩ := hl.chart b
    rw [hchart]
    exact ⟨rfl, rfl⟩
  have hgroup : ∀ {k : GroupId} {group : Group}, s₁.graph.groups[k]? = some group →
      group.members = [] := fun {k group} hk => by
    rw [hl.groups, ← Array.getElem?_toList, h.groups, List.getElem?_mapIdx] at hk
    obtain ⟨e, -, rfl⟩ := Option.map_eq_some_iff.1 hk
    rfl
  exact
    { tight := .of_sound hl.sound.graph
      lt := by
        rw [hl.size, h.size]
        rintro b (rfl | ⟨i, c, hi, hlive⟩)
        · exact Nat.lt_succ_self _
        · exact Nat.lt_succ_of_lt (h.has_lt_extent hi hlive.1)
      aside_lt := False.elim
      roots := fun b hb => by
        refine ⟨?_, id⟩
        rw [hl.roots, h.roots] at hb
        obtain rfl | hb := List.mem_cons.1 hb
        · obtain ⟨c, rest, hchs, hzero⟩ := h.exists_first
          exact hzero ▸ h.live_start (i := 0) (by rw [hchs]; rfl)
        · obtain ⟨c, hc, rfl⟩ := List.mem_map.1 hb
          obtain ⟨i, hi⟩ := List.getElem?_of_mem (List.mem_filter.1 hc).1
          exact h.live_start hi
      next := fun hb hx => (hl.mem_next.1 hx).elim (h.next_live hb) h.live_of_jumps
      outside := fun _ _ => id
      members := fun hk m hm => by
        rw [hgroup hk] at hm
        exact nomatch hm
      site := fun {k group} hk => by
        obtain ⟨block, hblock, hcall⟩ := hl.sound.graph.callSite hk
        rw [Graph.chart_of_getElem? hblock]
        exact ⟨id, Option.isSome_iff_exists.2 ⟨_, hcall⟩⟩
      calls := fun {b k} hb => by
        obtain ⟨group, hk, hsite⟩ := h.honest_linked hl b k hb
        exact ⟨group, hk, fun hlive => hsite ▸ hlive⟩
      enters := fun hk _ m hm => by
        rw [hgroup hk] at hm
        exact nomatch hm
      opened := fun {b} hb => by
        rw [(hchart b).1] at hb
        rw [(hchart b).2]
        exact ending_of_group hmarked (hshaped b) hb
      leads := fun {b} hb _ _ hnext => by
        rw [(hchart b).1, (hchart b).2]
        refine h.leads hmarked hshaped hfalls hb (List.eq_nil_iff_forall_not_mem.2 fun x hx => ?_)
        have hmem := hl.mem_next.2 (.inl hx)
        rw [hnext] at hmem
        exact nomatch hmem }

/-- Sentences begin where control may come to, once the jumps are drawn as before. -/
theorem opens (h : Draft o s p chs) (hl : Links s s₁ s.Jumps ps) : s₁.Opens (Live chs) := by
  intro j t ht
  have hget := s₁.procedures.getElem?_bare j
  rw [hl.bare, Procedures.getElem?_bare, ht] at hget
  obtain ⟨t', ht', heq⟩ := Option.map_eq_some_iff.1 hget
  obtain ⟨c, hc, -, hblocks, -⟩ := h.exists_chapter ht'
  obtain ⟨i, hi⟩ := List.getElem?_of_mem hc
  have hdrawn := h.drawn c hc
  have hsame : t'.blocks = t.blocks := (Sentence.mk.inj heq).2.2.2.1
  rw [← hsame, hblocks]
  refine ⟨fun b hb => ?_, fun b hb => ?_⟩
  · rw [hl.size, h.size]
    exact Nat.lt_succ_of_lt (h.has_lt_extent hi (hdrawn.mem_blocks.1 hb))
  · rw [hdrawn.head?_blocks] at hb
    exact Option.some.inj hb ▸ h.live_start hi

end Draft

/-! ### Programs -/

/-- The draft of a division, with the marks of its blocks. -/
theorem DivisionText.exists_marked (d : DivisionText) (o : Options) (program : Option String)
    (id : NodeId) : ∃ s chs s', Draft o s (d.plan program (id + 1)) chs ∧
      (s.Marked ∧ ∀ b, (s.graph.chart b).Shaped) ∧ Build.resolvePending o s = .ok ((), s') ∧
      Build.play o ((Script.division d).run id).1 { procedures := { program } } =
        .ok ((), { s' with inDivision := false }) := by
  obtain ⟨s₁, s, chs, s', hitems, hfinish, hdraft, hresolve, hplay⟩ :=
    d.exists_play_items o program id
  have hrecorded := (d.passes_items o program id).of_play hitems
  have hleft : ({ s₁ with enclosing := s₁.enclosing.tail } : Scope).Recorded _ :=
    hrecorded.congr (.refl _) rfl rfl rfl rfl rfl
  obtain ⟨-, -, -, l, -, hlogs, -⟩ := hleft.finishBlocks _ s hfinish
  have hmarked : ({ s₁ with enclosing := s₁.enclosing.tail } : Scope).Marked :=
    (d.marked_items o program id () s₁ hitems).congr (.of_blocks_eq rfl)
      (fun {_ t} ht => ⟨t, ht, rfl, rfl⟩) fun _ hj => ⟨hj, fun hopen => hopen⟩
  exact ⟨s, chs, s', hdraft, ⟨hmarked.ensures Build.finishBlocks_steps () s hfinish, hlogs.shaped⟩,
    hresolve, hplay⟩

/-- What is resolved at the end of a division leaves control carried on. -/
theorem Draft.carries_resolved {o : Options} {s s' : Scope} {d : DivisionText}
    {program : Option String} {id : NodeId} {chs : List Chapter}
    (h : Draft o s (d.plan program id) chs) (hmarked : s.Marked)
    (hshaped : ∀ b, (s.graph.chart b).Shaped) (hrun : Build.resolvePending o s = .ok ((), s')) :
    ∃ aside live, s'.graph.Carries aside (fun _ => False) live := by
  obtain ⟨s₁, hlinks, -, hresolve⟩ := h.exists_linked
  rw [hresolve] at hrun
  obtain ⟨⟨⟩, s₂, hcapture, hgraft⟩ := exists_of_run_bind_eq_ok hrun
  have hcarries := h.carries hmarked hshaped
    (fun hi hlt => d.exempts_of_plan program id hi hlt) hlinks
  obtain ⟨-, -, live, hcarries₂, -⟩ := Build.resolvePerforms_standsAside (h.opens hlinks)
    (.start hcarries) s.pending.performs () s₂ hcapture
  split at hgraft
  · obtain ⟨g, hg, rfl⟩ := Build.exists_of_editGraph_eq_ok hgraft
    obtain ⟨live', hcarries'⟩ := Build.graftGroups_carries o hcarries₂ () g hg
    exact ⟨_, live', hcarries'⟩
  · obtain ⟨-, rfl⟩ := Prod.mk.inj (Except.ok.inj hgraft)
    exact ⟨_, live, hcarries₂⟩

theorem ProgramUnit.Yields.neverDangles {o : Options} {u : ProgramUnit} {flow : ProgramFlow}
    (h : u.Yields o flow) : flow.graph.NeverDangles := by
  cases hd : u.division with
  | none =>
    obtain ⟨hgraph, -⟩ := h.of_none hd
    rw [hgraph]
    exact fun r hr => nomatch hr
  | some d =>
    obtain ⟨t, hplay, hgraph, -, -⟩ := h.built
    rw [events, hd] at hplay
    obtain ⟨s, chs, s', hdraft, ⟨hmarked, hshaped⟩, hresolve, hplay'⟩ :=
      d.exists_marked o u.program u.id
    obtain ⟨-, rfl⟩ := Prod.mk.inj (Except.ok.inj (hplay.symm.trans hplay'))
    obtain ⟨aside, live, hcarries⟩ := hdraft.carries_resolved hmarked hshaped hresolve
    rw [hgraph]
    exact hcarries.neverDangles

/-- **Control never dangles.** For every tree and every options there is a result, and in each of
its graphs an edge leads on from every block that control comes to from a root, unless the block
ends the graph, was ended by a statement, or belongs to the DECLARATIVES. -/
theorem StatementTree.build_neverDangles (t : StatementTree) (o : Options) : ∃ flows,
    t.build o = .ok flows ∧ ∀ flow ∈ flows, flow.graph.NeverDangles := by
  obtain ⟨flows, hbuild, hflows⟩ := t.exists_build o
  refine ⟨flows, hbuild, fun flow hflow => ?_⟩
  obtain ⟨u, -, hyields⟩ := exists_of_forall₂_of_mem hflows hflow
  exact hyields.neverDangles

end CobolFlow
