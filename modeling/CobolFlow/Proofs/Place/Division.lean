import CobolFlow.Proofs.Division.Body
import CobolFlow.Proofs.Place.Admits

/-!
# The statements of a division

Between the items of a division no fork is open. What waits for the end of the division waits in
blocks of earlier sentences, and what follows the DECLARATIVES goes back to an earlier sentence. So
the first statement of every sentence begins in a clear block, and with it all others do.

## Main results

* `Outline.clear` — an open sentence of which nothing has been read is clear
* `DivisionText.admits_items` — all notifications of a division come where they may
-/

namespace CobolFlow

open Scope
open Build (Admits)

/-! ### What earlier sentences have put aside -/

theorem Chapter.mem_blocks_ledger {chs : List Chapter} {b : ℕ}
    (hb : b ∈ (Chapter.ledger chs).blocks) : ∃ c ∈ chs, b ∈ c.marks.blocks := by
  induction chs using List.reverseRecOn with
  | nil => exact nomatch hb
  | append_singleton chs c ih =>
    rw [ledger, List.foldl_append] at hb
    obtain hb | hb := Ledger.mem_blocks_foldl hb
    · obtain ⟨c', hc', hb⟩ := ih hb
      exact ⟨c', List.mem_append_left _ hc', hb⟩
    · exact ⟨c, by simp, hb⟩

namespace Outline

variable {o : Options} {s s' : Scope} {p : Plan} {chs : List Chapter} {items : List Item}

/-- An open sentence of which nothing has been read is clear. -/
theorem clear (h : Outline o s p chs) (hp : p.begun = true)
    (hdeclaratives : ∀ k ∈ p.declaratives, k + 1 < chs.length) : s.Clear := by
  obtain ⟨pre, c, rfl, hfirst, -, hmarks, -⟩ := h.opened hp
  have hlast : (pre ++ [c])[pre.length]? = some c := by simp
  have hhere : c.start = s.sketch.here := congrArg Sketch.here hfirst
  -- Chapters before the last one end before it begins.
  have hbefore : ∀ {k : ℕ} {c' : Chapter}, k < pre.length → (pre ++ [c])[k]? = some c' →
      c'.stop < s.sketch.here := fun hk hc' =>
    hhere ▸ (h.chapters.drawn _ (List.mem_of_getElem? hc')).stop_lt.trans_le
      (h.chapters.size_le_start hk hc' hlast)
  refine ⟨h.ready hp, by simp [h.forks], fun hb => ?_, fun hd => ?_⟩
  · rw [awaiting_eq, h.chapters.ledger] at hb
    obtain ⟨c', hc', hb⟩ := Chapter.mem_blocks_ledger hb
    obtain hc' | hc' := List.mem_append.1 hc'
    · obtain ⟨k, hk, hget⟩ := List.getElem_of_mem hc'
      have hget' : (pre ++ [c])[k]? = some c' := by
        rw [List.getElem?_append_left hk, ← hget]
        simp
      have hstop := hbefore hk hget'
      have hlt := ((h.chapters.drawn c' (by simp [hc'])).placed.between _ hb).2
      exact absurd (hlt.trans hstop) (lt_irrefl _)
    · rw [List.mem_singleton.1 hc', hmarks] at hb
      exact nomatch hb
  · rw [h.declaratives] at hd
    obtain ⟨k, hk, hd⟩ := Option.bind_eq_some_iff.1 hd
    obtain ⟨c', hc', hstop⟩ := Option.map_eq_some_iff.1 hd
    have hk : k < pre.length := by simpa using hdeclaratives k hk
    exact absurd hstop (hbefore hk hc').ne

/-- A sentence that has just been opened is where the next one was to be. -/
theorem place_eq {c : Chapter} {p' : Plan} (h : Outline o s p chs)
    (hcurrent : s.currentSentence = none) (h' : Outline o s' p' (chs ++ [c]))
    (hp' : p'.begun = true) : s'.place = s.place := by
  obtain ⟨pre, c', hchs, hfirst, -⟩ := h'.opened hp'
  obtain rfl : c = c' := by simpa using (List.append_inj' hchs rfl).2
  have hget : (chs ++ [c])[chs.length]? = some c := List.getElem?_concat_length
  have hstart := h'.chapters.contiguous hget
  rw [List.take_left, ← h.chapters.size] at hstart
  have hsilent := (h'.chapters.drawn c (by simp)).silent
  rw [Chapter.start, hfirst] at hsilent hstart
  rw [(h'.ready hp').place_eq, Sketch.place, hsilent, hstart, Scope.place, hcurrent]
  rfl

/-- The notifications of a sentence come where they may. -/
theorem admits_sentence (h : Outline o s p chs) (id : NodeId) (text : SentenceText)
    (hallows : p.Allows (.sentence id text)) :
    Admits o (Item.sentence id text).events s := by
  have hevents : ((Script.sentence text).run id).1 =
      ((Script.statements text).run id).1 ++ [.sentenceEnd] := rfl
  have hend : ∀ s, Admits o [.sentenceEnd] s := fun _ => .single ⟨trivial, trivial⟩
  rw [Item.events, hevents, Build.Admits.append_iff]
  refine ⟨?_, fun s' _ => hend s'⟩
  have hregular := (Script.replay_statements text id).regular o
  cases hp : p.begun with
  | true =>
    have hnone : p.declaratives = none := hallows hp
    exact hregular.admits s (h.clear hp (by simp [hnone]))
  | false =>
    obtain ⟨s₁, c, hstart, hnodes, h₁, hbegun⟩ := h.exists_openSentence id
    have hcurrent := h.closed hp
    have hclear : s₁.Clear := h₁.clear hbegun fun k hk => by
      have hdeclaratives : (p.openSentence id).declaratives = p.declaratives := by
        rw [Plan.openSentence, Plan.edit]
        split <;> rfl
      rw [List.length_append]
      exact Nat.succ_lt_succ (h.declaratives_lt k (hdeclaratives ▸ hk))
    cases text with
    | nil =>
      rw [Script.statements]
      trivial
    | cons st rest =>
      obtain ⟨n, events, hstatements, hn, htag, -⟩ := Script.exists_enter_statements st rest id
      have hadmits := hregular.admits s₁ hclear
      have htake := take_enter_eq (o := o) hn htag h.inDivision hcurrent h₁.inDivision
        hclear.ready.currentSentence hstart hnodes
      rw [hstatements] at hadmits ⊢
      exact ⟨⟨htag, fun _ => ⟨s₁, hclear, h.place_eq hcurrent h₁ hbegun, htake.symm⟩⟩,
        fun s' hs' => hadmits.2 s' (htake ▸ hs')⟩

theorem admits_item (h : Outline o s p chs) (item : Item) (hallows : p.Allows item) :
    Admits o item.events s := by
  have hheading : ∀ (heading : Heading) (id : NodeId),
      ((heading.node id).tag ≠ .procedureDivision ∧ (heading.node id).tag.isStatement = false) ∧
        (heading.node id).tag ≠ .loop := fun heading id => by
    cases heading <;> exact ⟨⟨nofun, rfl⟩, nofun⟩
  cases item with
  | enter heading id => exact .single (Build.suits_clause (hheading heading id).1)
  | leave heading id =>
    exact .single (Build.suits_leave ⟨(hheading heading id).1.1, (hheading heading id).2⟩)
  | sentence id text => exact h.admits_sentence id text hallows

/-- **The notifications of a division** come where they may. -/
theorem admits_items (h : Outline o s p chs) (hallows : p.AllowsAll items) :
    Admits o (items.flatMap Item.events) s := by
  induction items generalizing s p chs with
  | nil => trivial
  | cons item rest ih =>
    obtain ⟨s', chs', hplay, h', -⟩ := h.exists_item item hallows.1
    exact (h.admits_item item hallows.1).append hplay (ih h' hallows.2)

end Outline

/-- All notifications of a division come where they may. -/
theorem DivisionText.admits_items (d : DivisionText) (o : Options) (program : Option String)
    (id : NodeId) :
    Admits o ((d.items.run (id + 1)).1.flatMap Item.events) (Scope.started program id) :=
  (Outline.start o program id).admits_items (d.allowsAll_items program (id + 1))

end CobolFlow
