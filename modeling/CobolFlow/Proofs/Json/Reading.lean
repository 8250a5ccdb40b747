import CobolFlow.Proofs.Json.Scanning

/-!
# What is written is read back

A value that is written, on one line or over several, is read as the draft that says the same. No
piece of it is broken, and nothing of the text is left.

The two forms differ only in the blanks between their parts. So it is said once, for each kind of
value, which text is read as which draft whatever blanks there are, and each form is an instance.

## Main definitions

* `draft` — the draft as which a value is read
* `Reads`, `ReadsItems`, `ReadsMembers` — a text is read as a draft, whatever comes after it

## Main results

* `read_compact`, `read_pretty` — a written value is read as its draft
-/

namespace CobolFlow.Json

mutual

/-- The draft as which a value is read. -/
def draft : Json → Draft
  | .null => .null
  | .bool b => .bool b
  | .number n => .number (numeral n)
  | .string s => .string (pieces s)
  | .array items => .array (drafts items) .closed
  | .object members => .object (memberDrafts members) .closed

def drafts : List Json → List Draft
  | [] => []
  | item :: rest => draft item :: drafts rest

def memberDrafts : List (String × Json) → List (Draft × Draft)
  | [] => []
  | (key, value) :: rest => (.string (pieces key), draft value) :: memberDrafts rest

end

/-! ### Blanks -/

/-- Nothing but blanks. -/
def Blank (ws : List Char) : Prop := ∀ c ∈ ws, isBlank c = true

theorem blank_nil : Blank [] := nofun

theorem blank_space : Blank [' '] := by simp [Blank, isBlank]

theorem blank_newLine (level : ℕ) : Blank (newLine level) := by
  intro c hc
  obtain rfl | hc := List.mem_cons.1 hc
  · rfl
  · obtain ⟨-, rfl⟩ := List.mem_replicate.1 hc
    rfl

theorem skipBlanks_append {ws : List Char} (hws : Blank ws) {c : Char} (hc : isBlank c = false)
    (cs : List Char) : skipBlanks (ws ++ c :: cs) = c :: cs := by
  rw [skipBlanks, List.dropWhile_append_of_pos hws, List.dropWhile_cons, hc]
  rfl

theorem stops_append {ws : List Char} (hws : Blank ws) {c : Char}
    (hc : c = ',' ∨ c = ']' ∨ c = '}') (cs : List Char) : Stops (ws ++ c :: cs) := by
  cases ws with
  | nil =>
    rintro _ ⟨⟩
    obtain rfl | rfl | rfl := hc <;> simp
  | cons w ws =>
    rintro _ ⟨⟩
    exact .inr (.inr (.inr (hws w List.mem_cons_self)))

/-- Blanks before a value are passed over. -/
theorem readValue_append {ws : List Char} (hws : Blank ws) (fuel : ℕ) (cs : List Char) :
    Draft.readValue fuel (ws ++ cs) = Draft.readValue fuel cs := by
  cases fuel with
  | zero => rfl
  | succ fuel =>
    have hskip : skipBlanks (ws ++ cs) = skipBlanks cs := List.dropWhile_append_of_pos hws
    rw [Draft.readValue, Draft.readValue, hskip]

/-! ### Texts with what they are read as -/

/-- The text is read as the draft, whatever comes after it. -/
structure Reads (cs : List Char) (d : Draft) : Prop where
  begins : ∃ c rest, cs = c :: rest ∧ isBlank c = false ∧ c ≠ ']'
  read : ∀ {fuel : ℕ} (tail : List Char), 2 * cs.length ≤ fuel → Stops tail →
    Draft.readValue fuel (cs ++ tail) = (d, some tail)

/-- Between brackets the text is read as these items. -/
def ReadsItems (cs : List Char) (items : List Draft) : Prop :=
  ∀ (fuel : ℕ) (first : Bool) (tail : List Char), 2 * cs.length < fuel →
    (items = [] → first = true) →
      Draft.readItems fuel first (cs ++ ']' :: tail) = (items, .closed, some tail)

/-- Between braces the text is read as these members. -/
def ReadsMembers (cs : List Char) (members : List (Draft × Draft)) : Prop :=
  ∀ (fuel : ℕ) (first : Bool) (tail : List Char), 2 * cs.length < fuel →
    (members = [] → first = true) →
      Draft.readMembers fuel first (cs ++ '}' :: tail) = (members, .closed, some tail)

section Values

variable {cs cs' ws ws' : List Char} {d : Draft} {items : List Draft}
  {members : List (Draft × Draft)}

theorem skipBlanks_cons {c : Char} (hc : isBlank c = false) (cs : List Char) :
    skipBlanks (c :: cs) = c :: cs :=
  skipBlanks_append blank_nil hc cs

theorem Reads.string (s : String) : Reads (quote s) (.string (pieces s)) where
  begins := ⟨'"', _, rfl, rfl, by decide⟩
  read {fuel} tail hfuel _ := by
    cases fuel with
    | zero => exact absurd hfuel (by simp [quote])
    | succ fuel =>
      have htext : quote s ++ tail = '"' :: (s.toList.flatMap escape ++ '"' :: tail) := by
        simp [quote]
      rw [htext, Draft.readValue, skipBlanks_cons (by rfl)]
      exact ofString_quote s tail

theorem isBlank_of_isDigit {c : Char} (hc : c.isDigit = true) : isBlank c = false := by
  by_contra hblank
  simp only [isBlank, Bool.not_eq_false, Bool.or_eq_true, decide_eq_true_eq] at hblank
  obtain ((rfl | rfl) | rfl) | rfl := hblank <;> exact absurd hc (by decide)

theorem readValue_digit {c : Char} (hc : c.isDigit = true) (fuel : ℕ) (cs : List Char) :
    Draft.readValue (fuel + 1) (c :: cs) = Draft.ofNumber (c :: cs) := by
  have hne : ∀ {c' : Char}, c'.isDigit = false → c ≠ c' := fun hc' h =>
    absurd hc (by rw [h, hc']; decide)
  rw [Draft.readValue, skipBlanks_cons (isBlank_of_isDigit hc)]
  split
  · next heq => exact nomatch heq
  · next heq => exact absurd (List.cons.inj heq).1 (hne (by decide))
  · next heq => exact absurd (List.cons.inj heq).1 (hne (by decide))
  · next heq => exact absurd (List.cons.inj heq).1 (hne (by decide))
  · next heq => exact absurd (List.cons.inj heq).1 (hne (by decide))
  · next heq => exact absurd (List.cons.inj heq).1 (hne (by decide))
  · next heq => exact absurd (List.cons.inj heq).1 (hne (by decide))
  · next heq =>
    obtain ⟨rfl, rfl⟩ := List.cons.inj heq
    exact if_pos (by simp [hc])

theorem Reads.number (n : ℕ) : Reads (Nat.toDigits 10 n) (.number (numeral n)) := by
  obtain ⟨c, cs, hdigits⟩ := List.exists_cons_of_ne_nil (Nat.toDigits_ne_nil (b := 10) (n := n))
  have hmem : c ∈ Nat.toDigits 10 n := hdigits ▸ List.mem_cons_self
  have hc : c.isDigit = true := Nat.isDigit_of_mem_toDigits (by decide) le_rfl hmem
  refine ⟨⟨c, cs, hdigits, isBlank_of_isDigit hc, fun h => absurd hc (by rw [h]; decide)⟩,
    fun {fuel} tail hfuel htail => ?_⟩
  cases fuel with
  | zero => exact absurd hfuel (by simp [hdigits])
  | succ fuel =>
    rw [hdigits, List.cons_append, readValue_digit hc, ← List.cons_append, ← hdigits,
      Draft.ofNumber, scanNumber_toDigits n htail]

theorem Reads.array (h : ReadsItems cs items) :
    Reads ('[' :: cs ++ [']']) (.array items .closed) where
  begins := ⟨'[', _, rfl, rfl, by decide⟩
  read {fuel} tail hfuel _ := by
    cases fuel with
    | zero => exact absurd hfuel (by simp)
    | succ fuel =>
      have htext : '[' :: cs ++ [']'] ++ tail = '[' :: (cs ++ ']' :: tail) := by simp
      have hfuel' : 2 * cs.length < fuel := by simp at hfuel; omega
      have hitems := h fuel true tail hfuel' fun _ => rfl
      rw [htext, Draft.readValue, skipBlanks_cons (by rfl)]
      exact congrArg (fun r => (Draft.array r.1 r.2.1, r.2.2)) hitems

theorem Reads.object (h : ReadsMembers cs members) :
    Reads ('{' :: cs ++ ['}']) (.object members .closed) where
  begins := ⟨'{', _, rfl, rfl, by decide⟩
  read {fuel} tail hfuel _ := by
    cases fuel with
    | zero => exact absurd hfuel (by simp)
    | succ fuel =>
      have htext : '{' :: cs ++ ['}'] ++ tail = '{' :: (cs ++ '}' :: tail) := by simp
      have hfuel' : 2 * cs.length < fuel := by simp at hfuel; omega
      have hmembers := h fuel true tail hfuel' fun _ => rfl
      rw [htext, Draft.readValue, skipBlanks_cons (by rfl)]
      exact congrArg (fun r => (Draft.object r.1 r.2.1, r.2.2)) hmembers

/-- Where the items of a container end. -/
theorem ReadsItems.nil (hws : Blank ws) : ReadsItems ws [] := by
  intro fuel first tail hfuel hfirst
  obtain rfl := hfirst rfl
  cases fuel with
  | zero => exact absurd hfuel (Nat.not_lt_zero _)
  | succ fuel =>
    rw [Draft.readItems, skipBlanks_append hws (by rfl)]
    rfl

/-- An item is read together with the comma or bracket after it. -/
theorem readItems_item (hws : Blank ws) (h : Reads cs d) (hws' : Blank ws') {c : Char}
    (hc : c = ',' ∨ c = ']') {fuel : ℕ} (hfuel : 2 * cs.length ≤ fuel) (first : Bool)
    (rest : List Char) : Draft.readItems (fuel + 1) first (ws ++ cs ++ ws' ++ c :: rest) =
      if c = ']' then ([d], .closed, some rest)
      else
        let (items, ending, after) := Draft.readItems fuel false rest
        (d :: items, ending, after) := by
  have hvalue := h.read _ hfuel (stops_append hws' (hc.imp_right .inl) rest)
  obtain ⟨b, cs, rfl, hblank, hb⟩ := h.begins
  have htext : ws ++ (b :: cs) ++ ws' ++ c :: rest = ws ++ b :: (cs ++ (ws' ++ c :: rest)) := by
    simp
  have hskip : skipBlanks (ws' ++ c :: rest) = c :: rest :=
    skipBlanks_append hws' (by obtain rfl | rfl := hc <;> rfl) rest
  rw [htext, Draft.readItems, skipBlanks_append hws hblank]
  split
  · next heq => exact nomatch heq
  · next heq => exact absurd (List.cons.inj heq).1 hb
  · dsimp only
    rw [← List.cons_append, hvalue]
    dsimp only
    rw [Option.map_some, hskip]
    obtain rfl | rfl := hc <;> rfl

theorem ReadsItems.single (hws : Blank ws) (h : Reads cs d) (hws' : Blank ws') :
    ReadsItems (ws ++ cs ++ ws') [d] := by
  intro fuel first tail hfuel _
  cases fuel with
  | zero => exact absurd hfuel (Nat.not_lt_zero _)
  | succ fuel =>
    have hfuel' : 2 * cs.length ≤ fuel := by simp at hfuel; omega
    rw [readItems_item hws h hws' (.inr rfl) hfuel']
    rfl

theorem ReadsItems.cons (hws : Blank ws) (h : Reads cs d) (hitems : ReadsItems cs' items)
    (hne : items ≠ []) : ReadsItems (ws ++ cs ++ ',' :: cs') (d :: items) := by
  intro fuel first tail hfuel _
  cases fuel with
  | zero => exact absurd hfuel (Nat.not_lt_zero _)
  | succ fuel =>
    have htext : ws ++ cs ++ ',' :: cs' ++ ']' :: tail =
        ws ++ cs ++ [] ++ ',' :: (cs' ++ ']' :: tail) := by simp
    have hfuel' : 2 * cs.length ≤ fuel := by simp at hfuel; omega
    have hfuel'' : 2 * cs'.length < fuel := by simp at hfuel; omega
    rw [htext, readItems_item hws h blank_nil (.inl rfl) hfuel',
      hitems _ _ _ hfuel'' fun hnil => absurd hnil hne]
    rfl

/-- Where the members of a container end. -/
theorem ReadsMembers.nil (hws : Blank ws) : ReadsMembers ws [] := by
  intro fuel first tail hfuel hfirst
  obtain rfl := hfirst rfl
  cases fuel with
  | zero => exact absurd hfuel (Nat.not_lt_zero _)
  | succ fuel =>
    rw [Draft.readMembers, skipBlanks_append hws (by rfl)]
    rfl

/-- A member is read together with the comma or brace after it. -/
theorem readMembers_member (hws : Blank ws) (key : String) {gap : List Char} (hgap : Blank gap)
    (h : Reads cs d) (hws' : Blank ws') {c : Char} (hc : c = ',' ∨ c = '}') {fuel : ℕ}
    (hfuel : 2 * cs.length ≤ fuel) (first : Bool) (rest : List Char) :
    Draft.readMembers (fuel + 1) first
        (ws ++ quote key ++ ':' :: (gap ++ cs) ++ ws' ++ c :: rest) =
      if c = '}' then ([(.string (pieces key), d)], .closed, some rest)
      else
        let (members, ending, after) := Draft.readMembers fuel false rest
        ((.string (pieces key), d) :: members, ending, after) := by
  have hvalue := h.read _ hfuel (stops_append hws' (hc.imp_right .inr) rest)
  have htext : ws ++ quote key ++ ':' :: (gap ++ cs) ++ ws' ++ c :: rest =
      ws ++ '"' :: (key.toList.flatMap escape ++
        '"' :: ':' :: (gap ++ (cs ++ (ws' ++ c :: rest)))) := by
    simp [quote]
  have hskip : skipBlanks (ws' ++ c :: rest) = c :: rest :=
    skipBlanks_append hws' (by obtain rfl | rfl := hc <;> rfl) rest
  rw [htext, Draft.readMembers, skipBlanks_append hws (by rfl)]
  split
  · next heq => exact nomatch heq
  · next heq => exact absurd (List.cons.inj heq).1 (by decide)
  · next heq =>
    obtain ⟨-, rfl⟩ := List.cons.inj heq
    dsimp only
    rw [ofString_quote, Option.map_some, skipBlanks_cons (by rfl)]
    split
    · next heq =>
      obtain ⟨-, rfl⟩ := List.cons.inj (Option.some.inj heq)
      dsimp only
      rw [readValue_append hgap, hvalue, Option.map_some, hskip]
      obtain rfl | rfl := hc <;> rfl
    · next heq => exact nomatch heq
    · next hne _ => exact (hne _ rfl).elim
  · next hne => exact (hne _ rfl).elim

theorem ReadsMembers.single (hws : Blank ws) (key : String) {gap : List Char} (hgap : Blank gap)
    (h : Reads cs d) (hws' : Blank ws') :
    ReadsMembers (ws ++ quote key ++ ':' :: (gap ++ cs) ++ ws') [(.string (pieces key), d)] := by
  intro fuel first tail hfuel _
  cases fuel with
  | zero => exact absurd hfuel (Nat.not_lt_zero _)
  | succ fuel =>
    have hfuel' : 2 * cs.length ≤ fuel := by simp at hfuel; omega
    rw [readMembers_member hws key hgap h hws' (.inr rfl) hfuel']
    rfl

theorem ReadsMembers.cons (hws : Blank ws) (key : String) {gap : List Char} (hgap : Blank gap)
    (h : Reads cs d) (hmembers : ReadsMembers cs' members) (hne : members ≠ []) :
    ReadsMembers (ws ++ quote key ++ ':' :: (gap ++ cs) ++ ',' :: cs')
      ((.string (pieces key), d) :: members) := by
  intro fuel first tail hfuel _
  cases fuel with
  | zero => exact absurd hfuel (Nat.not_lt_zero _)
  | succ fuel =>
    have htext : ws ++ quote key ++ ':' :: (gap ++ cs) ++ ',' :: cs' ++ '}' :: tail =
        ws ++ quote key ++ ':' :: (gap ++ cs) ++ [] ++ ',' :: (cs' ++ '}' :: tail) := by simp
    have hfuel' : 2 * cs.length ≤ fuel := by simp at hfuel; omega
    have hfuel'' : 2 * cs'.length < fuel := by simp at hfuel; omega
    rw [htext, readMembers_member hws key hgap h blank_nil (.inl rfl) hfuel',
      hmembers _ _ _ hfuel'' fun hnil => absurd hnil hne]
    rfl

theorem Reads.null : Reads "null".toList .null where
  begins := ⟨'n', _, rfl, rfl, by decide⟩
  read {fuel} tail hfuel _ := by
    cases fuel with
    | zero => exact absurd hfuel (by decide)
    | succ fuel => rfl

theorem Reads.bool (b : Bool) : Reads (compact (.bool b)) (.bool b) := by
  cases b with
  | true =>
    refine ⟨⟨'t', _, rfl, rfl, by decide⟩, fun {fuel} tail hfuel _ => ?_⟩
    cases fuel with
    | zero => exact absurd hfuel (by decide)
    | succ fuel => rfl
  | false =>
    refine ⟨⟨'f', _, rfl, rfl, by decide⟩, fun {fuel} tail hfuel _ => ?_⟩
    cases fuel with
    | zero => exact absurd hfuel (by decide)
    | succ fuel => rfl

end Values

/-! ### Whole values -/

mutual

theorem reads_compact : ∀ j : Json, Reads j.compact j.draft
  | .null => .null
  | .bool b => .bool b
  | .number n => .number n
  | .string s => .string s
  | .array items => .array (readsItems_compact items)
  | .object members => .object (readsMembers_compact members)

theorem readsItems_compact : ∀ items : List Json, ReadsItems (compactItems items) (drafts items)
  | [] => .nil blank_nil
  | [item] => by
    have h := ReadsItems.single blank_nil (reads_compact item) blank_nil
    rwa [List.nil_append, List.append_nil] at h
  | item :: next :: rest => by
    have h := ReadsItems.cons blank_nil (reads_compact item) (readsItems_compact (next :: rest))
      nofun
    rwa [List.nil_append] at h

theorem readsMembers_compact : ∀ members : List (String × Json),
    ReadsMembers (compactMembers members) (memberDrafts members)
  | [] => .nil blank_nil
  | [(key, value)] => by
    have h := ReadsMembers.single blank_nil key blank_nil (reads_compact value) blank_nil
    rwa [List.nil_append, List.nil_append, List.append_nil] at h
  | (key, value) :: next :: rest => by
    have h := ReadsMembers.cons blank_nil key blank_nil (reads_compact value)
      (readsMembers_compact (next :: rest)) nofun
    rw [memberDrafts]
    simpa [compactMembers] using h

end

mutual

theorem reads_pretty (level : ℕ) : ∀ j : Json, Reads (j.pretty level) j.draft
  | .null => .null
  | .bool b => .bool b
  | .number n => .number n
  | .string s => .string s
  | .array [] => .array (.nil blank_nil)
  | .object [] => .object (.nil blank_nil)
  | .array (item :: rest) => .array (readsItems_pretty level (item :: rest))
  | .object (member :: rest) => .object (readsMembers_pretty level (member :: rest))

/-- The last item is followed by the end of its line. -/
theorem readsItems_pretty (level : ℕ) : ∀ items : List Json,
    ReadsItems (prettyItems (level + 1) items ++ newLine level) (drafts items)
  | [] => .nil (blank_newLine level)
  | [item] => .single (blank_newLine _) (reads_pretty _ item) (blank_newLine level)
  | item :: next :: rest => by
    have h := ReadsItems.cons (blank_newLine (level + 1)) (reads_pretty (level + 1) item)
      (readsItems_pretty level (next :: rest)) nofun
    rw [drafts]
    simpa [prettyItems] using h

theorem readsMembers_pretty (level : ℕ) : ∀ members : List (String × Json),
    ReadsMembers (prettyMembers (level + 1) members ++ newLine level) (memberDrafts members)
  | [] => .nil (blank_newLine level)
  | [(key, value)] => .single (blank_newLine _) key blank_space (reads_pretty _ value)
      (blank_newLine level)
  | (key, value) :: next :: rest => by
    have h := ReadsMembers.cons (blank_newLine (level + 1)) key blank_space
      (reads_pretty (level + 1) value) (readsMembers_pretty level (next :: rest)) nofun
    rw [memberDrafts]
    simpa [prettyMembers] using h

end

theorem Reads.read_eq {cs : List Char} {d : Draft} (h : Reads cs d) :
    Draft.read cs = (d, some []) := by
  have hread := h.read [] (Nat.le_add_right (2 * cs.length) 2) nofun
  rwa [List.append_nil] at hread

/-- **A value on one line** is read back. -/
theorem read_compact (j : Json) : Draft.read j.compact = (j.draft, some []) :=
  (reads_compact j).read_eq

/-- **A value over several lines** is read back. -/
theorem read_pretty (j : Json) : Draft.read (j.pretty 0) = (j.draft, some []) :=
  (reads_pretty 0 j).read_eq

end CobolFlow.Json
