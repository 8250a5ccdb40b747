import CobolFlow.Proofs.Walk.Answers
import CobolFlow.Proofs.Walk.Preorder
import CobolFlow.Text.Lines
import Mathlib.Data.List.Basic

/-!
# What a listing says

A listing can be read back: its text tells which blocks can be reached, in which order a search
meets them, and where each of them leads. Every number is written in decimal digits and ends at a
mark that is no digit, so numbers of any size are told apart; a block that leads nowhere has nothing
between its braces, and one that leads twice to the same block names it twice.

Reading goes line by line, and what a line says does not depend on the others. So two texts are
equal only if they say the same, and as a graph has only one listing, the texts of two graphs are
equal exactly if their listings are.

## Main definitions

* `Listing.Entry.ofLine?`, `Listing.ofText?` — what a line and a whole text say
* `Graph.Enlists` — the listing of a graph, said without its text

## Main results

* `Listing.ofText?_flatMap` — what is written is read back
* `Listing.render_determines` — the text of a listing determines what can be reached
-/

namespace CobolFlow

/-! ### Lines -/

namespace Text

theorem cutLines_append {line : List Char} (h : '\n' ∉ line) (rest : List Char) :
    cutLines (line ++ '\n' :: rest) = (line ++ ['\n']) :: cutLines rest := by
  induction line with
  | nil => rw [List.nil_append, cutLines, List.nil_append]
  | cons c line ih =>
    obtain ⟨hc, hline⟩ := not_or.1 (mt List.mem_cons.2 h)
    rw [List.cons_append, cutLines, ih hline]
    · rfl
    · exact fun heq => hc heq.symm

/-- A line that does not end in a carriage return is cut off whole. -/
theorem lines_append {line : List Char} (h : '\n' ∉ line) {c : Char} (hc : c ≠ '\r')
    (hlast : line.reverse.head? = some c) (rest : List Char) :
    lines (line ++ '\n' :: rest) = line :: lines rest := by
  have hstrip : stripFeed (line ++ ['\n']) = line := by
    obtain ⟨others, hothers⟩ := List.head?_eq_some_iff.1 hlast
    rw [stripFeed, List.reverse_append, hothers]
    split
    · next heq => simp [hc] at heq
    · next heq =>
      obtain ⟨-, rfl⟩ := List.cons.inj heq
      exact List.reverse_eq_iff.2 hothers.symm
    · next hne => exact (hne _ rfl).elim
  rw [lines, cutLines_append h, List.filter_cons_of_pos (by simp), List.map_cons, hstrip]
  rfl

end Text

namespace Listing

/-! ### What is written -/

/-- The digits of some numbers, with commas between them. -/
def digitLists (ns : List ℕ) : List Char := [','].intercalate (ns.map (Nat.toDigits 10))

/-- A line as it is written, without its end. -/
def Entry.chars (e : Entry) : List Char :=
  "BLOCK[".toList ++ (Nat.toDigits 10 e.block ++ ("] -> \x7b".toList ++
    (digitLists e.successors ++ ['}'])))

-- said once by `rfl`: the equation that `rw` would make of a definition with texts in it is slow
theorem Entry.chars_eq (e : Entry) :
    e.chars = "BLOCK[".toList ++ (Nat.toDigits 10 e.block ++ ("] -> \x7b".toList ++
      (digitLists e.successors ++ ['}']))) := rfl

theorem Entry.line_eq (e : Entry) : e.line = e.chars ++ ['\n'] := by
  have hline : e.line = "BLOCK[".toList ++ Nat.toDigits 10 e.block ++ "] -> \x7b".toList ++
      digitLists e.successors ++ ['}', '\n'] := rfl
  rw [hline, e.chars_eq]
  simp only [List.append_assoc, List.singleton_append]

theorem isDigit_of_mem_toDigits {n : ℕ} {c : Char} (hc : c ∈ Nat.toDigits 10 n) :
    c.isDigit = true :=
  Nat.isDigit_of_mem_toDigits (by decide) le_rfl hc

/-- Between the braces stand digits and commas only. -/
theorem isDigit_or_eq_of_mem_digitLists {ns : List ℕ} {c : Char} (hc : c ∈ digitLists ns) :
    c.isDigit = true ∨ c = ',' := by
  induction ns with
  | nil => exact nomatch hc
  | cons n ns ih =>
    cases ns with
    | nil => exact .inl (isDigit_of_mem_toDigits (by simpa [digitLists] using hc))
    | cons m ns =>
      rw [digitLists, List.map_cons, List.map_cons, List.intercalate_cons_cons, List.append_assoc,
        List.mem_append, List.mem_append, List.mem_singleton] at hc
      obtain hc | hc | hc := hc
      · exact .inl (isDigit_of_mem_toDigits hc)
      · exact .inr hc
      · exact ih hc

theorem Entry.newline_notMem_chars (e : Entry) : '\n' ∉ e.chars := by
  simp only [e.chars_eq, List.mem_append, not_or]
  refine ⟨by decide, fun hmem => ?_, by decide, fun hmem => ?_, by decide⟩
  · exact absurd (isDigit_of_mem_toDigits hmem) (by decide)
  · exact absurd (isDigit_or_eq_of_mem_digitLists hmem) (by decide)

/-! ### Reading -/

/-- The number that some digits write. -/
def ofDigits? (cs : List Char) : Option ℕ :=
  if cs ≠ [] ∧ cs.all Char.isDigit then some (Nat.ofDigitChars 10 cs 0) else none

/-- The numbers that stand between commas; there are none where nothing stands. -/
def ofDigitLists? (cs : List Char) : Option (List ℕ) :=
  if cs = [] then some [] else (cs.splitOn ',').mapM ofDigits?

/-- What follows a word that has to stand here. -/
def after? : List Char → List Char → Option (List Char)
  | [], cs => some cs
  | _ :: _, [] => none
  | w :: word, c :: cs => if c = w then after? word cs else none

/-- What a line says, without the end of the line. -/
def Entry.ofLine? (line : List Char) : Option Entry := do
  let cs ← after? "BLOCK[".toList line
  let block ← ofDigits? (cs.takeWhile Char.isDigit)
  let cs ← after? "] -> \x7b".toList (cs.dropWhile Char.isDigit)
  let successors ← ofDigitLists? (cs.takeWhile (· ≠ '}'))
  if cs.dropWhile (· ≠ '}') = ['}'] then some { block, successors } else none

/-- What a text says, line by line. -/
def ofText? (cs : List Char) : Option (List Entry) := (Text.lines cs).mapM Entry.ofLine?

theorem ofDigits?_toDigits (n : ℕ) : ofDigits? (Nat.toDigits 10 n) = some n := by
  have hall : (Nat.toDigits 10 n).all Char.isDigit = true :=
    List.all_eq_true.2 fun c => isDigit_of_mem_toDigits
  rw [ofDigits?, if_pos ⟨Nat.toDigits_ne_nil, hall⟩, Nat.ofDigitChars_ten_toDigits]

theorem mapM_ofDigits?_toDigits (ns : List ℕ) :
    (ns.map (Nat.toDigits 10)).mapM ofDigits? = some ns := by
  induction ns with
  | nil => rfl
  | cons n ns ih =>
    rw [List.map_cons, List.mapM_cons, ofDigits?_toDigits, ih]
    rfl

theorem ofDigitLists?_digitLists (ns : List ℕ) : ofDigitLists? (digitLists ns) = some ns := by
  cases ns with
  | nil => rfl
  | cons n ns =>
    have hcomma : ∀ digits ∈ (n :: ns).map (Nat.toDigits 10), ',' ∉ digits := by
      intro digits hdigits hmem
      obtain ⟨m, -, rfl⟩ := List.mem_map.1 hdigits
      exact absurd (isDigit_of_mem_toDigits hmem) (by decide)
    have hne : digitLists (n :: ns) ≠ [] := by
      cases ns with
      | nil => simp [digitLists]
      | cons m ns => simp [digitLists]
    rw [ofDigitLists?, if_neg hne, digitLists, List.splitOn_intercalate ',' hcomma (by simp),
      mapM_ofDigits?_toDigits]

theorem after?_append (word cs : List Char) : after? word (word ++ cs) = some cs := by
  induction word with
  | nil => rfl
  | cons w word ih => rw [List.cons_append, after?, if_pos rfl, ih]

theorem Entry.ofLine?_chars (e : Entry) : Entry.ofLine? e.chars = some e := by
  have hdigits : ∀ c ∈ Nat.toDigits 10 e.block, c.isDigit = true := fun c =>
    isDigit_of_mem_toDigits
  have hinner : ∀ c ∈ digitLists e.successors, decide (c ≠ '}') = true := fun c hc => by
    rw [decide_eq_true_eq]
    rintro rfl
    exact absurd (isDigit_or_eq_of_mem_digitLists hc) (by decide)
  -- the digits end where the second word begins
  have hmark : ∀ {cs}, ("] -> \x7b".toList ++ cs).takeWhile Char.isDigit = [] ∧
      ("] -> \x7b".toList ++ cs).dropWhile Char.isDigit = "] -> \x7b".toList ++ cs :=
    ⟨rfl, rfl⟩
  rw [e.chars_eq]
  change (after? _ _ >>= _) = _
  simp only [after?_append, Option.bind_eq_bind, Option.bind_some,
    List.takeWhile_append_of_pos hdigits, List.dropWhile_append_of_pos hdigits, hmark,
    List.append_nil, ofDigits?_toDigits, List.takeWhile_append_of_pos hinner,
    List.dropWhile_append_of_pos hinner]
  change (ofDigitLists? (_ ++ []) >>= _) = _
  rw [List.append_nil, ofDigitLists?_digitLists]
  rfl

/-- What is written is read back. -/
theorem ofText?_flatMap (entries : List Entry) :
    ofText? (entries.flatMap Entry.line) = some entries := by
  induction entries with
  | nil => rfl
  | cons e entries ih =>
    have hlast : e.chars.reverse.head? = some '}' := by
      simp only [e.chars_eq, List.reverse_append, List.append_assoc]
      rfl
    rw [ofText?, List.flatMap_cons, e.line_eq, List.append_assoc, List.singleton_append,
      Text.lines_append e.newline_notMem_chars (by decide) hlast, List.mapM_cons,
      e.ofLine?_chars]
    change (ofText? (entries.flatMap Entry.line) >>= _) = _
    rw [ih]
    rfl

end Listing

/-! ### Listings -/

/-- The listing of a graph: every block that can be reached, once and in depth-first order, with
the blocks that it leads to, in the order of its edges. -/
structure Graph.Enlists (g : Graph) (entries : List Listing.Entry) : Prop where
  order : g.DepthFirst [] g.roots (entries.map (·.block))
  nodup : (entries.map (·.block)).Nodup
  mem_iff : ∀ b, b ∈ entries.map (·.block) ↔ g.Reached b
  successors : ∀ e ∈ entries, g.successors e.block = .ok e.successors

namespace Graph

variable {g g' : Graph} {entries entries' : List Listing.Entry}

/-- A graph has only one listing. -/
theorem Enlists.unique (h : g.Enlists entries) (h' : g.Enlists entries') : entries = entries' := by
  have hblocks := h.order.unique h'.order
  replace h := h.successors
  replace h' := h'.successors
  induction entries generalizing entries' with
  | nil => exact (List.map_eq_nil_iff.1 hblocks.symm).symm
  | cons e entries ih =>
    cases entries' with
    | nil => exact nomatch hblocks
    | cons e' entries' =>
      obtain ⟨b, next⟩ := e
      obtain ⟨b', next'⟩ := e'
      obtain ⟨rfl, hrest⟩ : b = b' ∧ _ := List.cons.inj hblocks
      obtain ⟨hnext, h⟩ := List.forall_mem_cons.1 h
      obtain ⟨hnext', hrest'⟩ := List.forall_mem_cons.1 h'
      obtain rfl : next = next' := Except.ok.inj (hnext.symm.trans hnext')
      rw [ih hrest h hrest']

/-- The successors of some blocks can be read one after the other. -/
theorem Checked.exists_entries (hg : g.Checked) {order : List Block}
    (hstored : ∀ block ∈ order, g.blocks[block.id]? = some block) :
    ∃ entries : List Listing.Entry, (order.mapM fun block =>
        return ({ block := block.id, successors := ← g.successors block.id } : Listing.Entry)) =
          Except.ok entries ∧
      entries.map (·.block) = order.map Block.id ∧
      ∀ e ∈ entries, g.successors e.block = .ok e.successors := by
  induction order with
  | nil => exact ⟨[], rfl, rfl, nofun⟩
  | cons block order ih =>
    obtain ⟨next, hnext, -⟩ := hg.exists_successors_eq_ok
      (lt_size_of_getElem? (hstored block (by simp)))
    obtain ⟨entries, hentries, hblocks, hsuccessors⟩ := ih fun b hb => hstored b (by simp [hb])
    refine ⟨⟨block.id, next⟩ :: entries, ?_, by simp [hblocks], ?_⟩
    · rw [List.mapM_cons, hnext, ok_bind, hentries]
      rfl
    · exact List.forall_mem_cons.2 ⟨hnext, hsuccessors⟩

/-- A listing is rendered line by line. -/
theorem Checked.exists_render (hg : g.Checked) : ∃ entries, g.Enlists entries ∧
    Listing.render g = .ok (String.ofList (entries.flatMap Listing.Entry.line)) := by
  obtain ⟨order, hreached, hcovers, horder⟩ := hg.exists_reachedBlocks_depthFirst
  obtain ⟨entries, hentries, hblocks, hsuccessors⟩ := hg.exists_entries hcovers.stored
  rw [← hblocks] at horder
  refine ⟨entries, ⟨horder, hblocks ▸ hcovers.nodup, fun b => ?_, hsuccessors⟩, ?_⟩
  · rw [hblocks, hcovers.mem_iff]
    rfl
  · rw [Listing.render, Listing.entries, hreached, ok_bind, hentries]
    rfl

end Graph

/-- **The text of a listing determines what can be reached.** In a graph without defects every block
that can be reached is listed, in depth-first order and with the blocks it leads to; the listing is
read back from its text; and the text of another graph is the same exactly if its listing is. -/
theorem Listing.render_determines {g : Graph} (hg : g.check = .ok ()) : ∃ entries text,
    g.Enlists entries ∧ Listing.render g = .ok text ∧ Listing.ofText? text.toList = some entries ∧
      ∀ {g' : Graph}, g'.check = .ok () → ∀ {entries' : List Entry}, g'.Enlists entries' →
        (Listing.render g' = .ok text ↔ entries' = entries) := by
  obtain ⟨entries, hlists, hrender⟩ := (Graph.check_eq_ok_iff.1 hg).exists_render
  refine ⟨entries, _, hlists, hrender, by rw [String.toList_ofList, ofText?_flatMap],
    fun {g'} hg' {entries'} hlists' => ?_⟩
  obtain ⟨entries'', hlists'', hrender'⟩ := (Graph.check_eq_ok_iff.1 hg').exists_render
  obtain rfl := hlists'.unique hlists''
  rw [hrender', Except.ok.injEq]
  constructor
  · intro htext
    have hread := congrArg (fun text : String => ofText? text.toList) htext
    simpa only [String.toList_ofList, ofText?_flatMap, Option.some.injEq] using hread
  · rintro rfl
    rfl

/-- The listing of `Graph.twoRoots` from other slots, beside a block that nothing leads to. -/
def Graph.rearranged : Graph where
  blocks := #[{ id := 0, successors := [3, 2, 1] }, { id := 1, successors := [1] },
    { id := 2, successors := [0] }, { id := 3, successors := [1, 2] },
    { id := 4, successors := [0, 4] }]
  slots := #[0, 2, 1, 1, 3]
  roots := [0, 3]

theorem Listing.render_determines_rearranged : Graph.twoRoots.check = .ok () ∧
    Graph.rearranged.check = .ok () ∧ ∃ entries entries' text,
      Graph.twoRoots.Enlists entries ∧ Graph.rearranged.Enlists entries' ∧
      Listing.render Graph.twoRoots = .ok text ∧ Listing.ofText? text.toList = some entries ∧
      (Listing.render Graph.rearranged = .ok text ↔ entries' = entries) := by
  obtain ⟨entries, text, hlists, hrender, hread, hother⟩ :=
    Listing.render_determines (g := Graph.twoRoots) (by rfl)
  obtain ⟨entries', -, hlists', -⟩ := Listing.render_determines (g := Graph.rearranged) (by rfl)
  exact ⟨by rfl, by rfl, entries, entries', text, hlists, hlists', hrender, hread,
    hother (by rfl) hlists'⟩

example : Listing.Entry.ofLine? "BLOCK[10] -> \x7b2,2,31\x7d".toList =
    some { block := 10, successors := [2, 2, 31] } := by cbv

end CobolFlow
