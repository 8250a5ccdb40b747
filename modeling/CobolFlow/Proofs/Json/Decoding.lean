import CobolFlow.Json.Decode
import CobolFlow.Proofs.Json.Reading
import Mathlib.Data.List.Forall2
import Mathlib.Order.Nat

/-!
# What a decoder makes of a value

A decoder is asked to make a certain thing of a value, wherever the value stands: read directly or
set aside, as long as its containers have room. This is said for each shape of decoder on the
condition that its parts do the same, so that a decoder is proved to undo an encoder by following
how it is put together.

A value may be set aside before it is decoded. That it stands this check is carried along.

## Main definitions

* `depth` — how many containers stand in each other
* `Decodes` — what a decoder makes of a value
* `Fills` — what becomes of a record when its members are read

## Main results

* `Decodes.string`, `Decodes.unsigned`, `Decodes.word`, `Decodes.orNull`, `Decodes.list`,
  `Fills.record` — one for each shape of decoder
* `decodeText_eq` — a whole text
-/

namespace CobolFlow.Json

/-! ### How deep a value is -/

mutual

/-- How many containers stand in each other. -/
def depth : Json → ℕ
  | .array items => itemsDepth items + 1
  | .object members => membersDepth members + 1
  | _ => 0

def itemsDepth : List Json → ℕ
  | [] => 0
  | item :: rest => max (depth item) (itemsDepth rest)

def membersDepth : List (String × Json) → ℕ
  | [] => 0
  | (_, value) :: rest => max (depth value) (membersDepth rest)

end

theorem memberDrafts_append (l l' : List (String × Json)) :
    memberDrafts (l ++ l') = memberDrafts l ++ memberDrafts l' := by
  induction l with
  | nil => rfl
  | cons m l ih => rw [List.cons_append, memberDrafts, memberDrafts, ih, List.cons_append]

theorem membersDepth_append (l l' : List (String × Json)) :
    membersDepth (l ++ l') = max (membersDepth l) (membersDepth l') := by
  induction l with
  | nil => exact (Nat.max_eq_right (Nat.zero_le _)).symm
  | cons m l ih => rw [List.cons_append, membersDepth, membersDepth, ih, Nat.max_assoc]

/-! ### Values that are set aside -/

/-- Nothing is wrong with the value when it is set aside where there is room for it. -/
def Settles (j : Json) : Prop := ∀ depth, j.depth ≤ depth → j.draft.settle depth = .ok ()

theorem text_pieces (s : String) : Draft.text (pieces s) = .ok s := by
  rw [Draft.text, spell_pieces]
  exact congrArg Except.ok String.ofList_toList

theorem settles_string (s : String) : Settles (.string s) := by
  intro depth _
  rw [draft, Draft.settle, Draft.found, text_pieces]
  · rfl
  · exact nofun
  · exact nofun

theorem settles_number {n : ℕ} (h : n < UInt64.size) : Settles (.number n) := by
  intro depth _
  rw [draft, Draft.settle, Draft.found, value_numeral h]
  · rfl
  · exact nofun
  · exact nofun

theorem settles_array {items : List Json} (h : ∀ item ∈ items, item.Settles) :
    Settles (.array items) := by
  intro depth hdepth
  obtain ⟨depth, rfl⟩ := Nat.exists_eq_add_one_of_ne_zero (Nat.ne_zero_of_lt hdepth)
  have hitems : Draft.settleItems depth (drafts items) = .ok () := by
    replace hdepth : itemsDepth items ≤ depth := Nat.le_of_succ_le_succ hdepth
    induction items with
    | nil => rfl
    | cons item rest ih =>
      obtain ⟨hhead, htail⟩ := Nat.max_le.1 hdepth
      rw [drafts, Draft.settleItems, h item List.mem_cons_self depth hhead]
      exact ih (fun j hj => h j (List.mem_cons_of_mem item hj)) htail
  rw [draft, Draft.settle, hitems]
  rfl

theorem settles_object {members : List (String × Json)} (h : ∀ m ∈ members, m.2.Settles) :
    Settles (.object members) := by
  intro depth hdepth
  obtain ⟨depth, rfl⟩ := Nat.exists_eq_add_one_of_ne_zero (Nat.ne_zero_of_lt hdepth)
  have hmembers : Draft.settleMembers depth (memberDrafts members) = .ok () := by
    replace hdepth : membersDepth members ≤ depth := Nat.le_of_succ_le_succ hdepth
    induction members with
    | nil => rfl
    | cons m rest ih =>
      obtain ⟨key, j⟩ := m
      obtain ⟨hhead, htail⟩ := Nat.max_le.1 hdepth
      rw [memberDrafts, Draft.settleMembers, Draft.keyText, text_pieces]
      change (j.draft.settle depth >>= _) = _
      rw [h (key, j) List.mem_cons_self depth hhead]
      exact ih (fun m hm => h m (List.mem_cons_of_mem _ hm)) htail
  rw [draft, Draft.settle, hmembers]
  rfl

/-! ### What a decoder makes -/

open Decoder

variable {α β ρ : Type} {limit : ℕ}

/-- A value that is there is decoded as if it could not be left open. -/
theorem optional_draft {decode : Decoder α} {j : Json} (hj : j ≠ .null) (p : Place) :
    Decoder.optional decode p j.draft = some <$> decode p j.draft := by
  have hdraft : j.draft ≠ .null := by
    cases j with
    | null => exact absurd rfl hj
    | _ => rw [draft]; exact nofun
  rw [Decoder.optional]
  exact hdraft

/-- The decoder makes `a` of the value, wherever there is room for it. No place has more room than
the limit. -/
structure Decodes (limit : ℕ) (decode : Decoder α) (j : Json) (a : α) : Prop where
  settles : j.Settles
  decode : ∀ p : Place, j.depth ≤ p.depth → p.depth ≤ limit → decode p j.draft = .ok a

namespace Decodes

variable {decode : Decoder α} {j : Json} {a : α}

theorem mono {limit' : ℕ} (h : Decodes limit decode j a) (hle : limit' ≤ limit) :
    Decodes limit' decode j a :=
  ⟨h.settles, fun p hdepth hlimit => h.decode p hdepth (hlimit.trans hle)⟩

/-- What is decoded is made into something else. -/
theorem map (h : Decodes limit decode j a) (f : α → β) {b : β} (hb : f a = b) :
    Decodes limit (fun p d => do return f (← decode p d)) j b := by
  refine ⟨h.settles, fun p hdepth hlimit => ?_⟩
  rw [h.decode p hdepth hlimit, ← hb]
  rfl

/-- A decoder that counts how deep it is need not answer where nothing can be opened any more. -/
theorem of_succ {decode : ℕ → Decoder α} (hj : 0 < j.depth)
    (h : ∀ n ≤ limit, Decodes (n + 1) (decode (n + 1)) j a) : Decodes limit (decode limit) j a := by
  cases limit with
  | zero =>
    exact ⟨(h 0 le_rfl).settles, fun p hdepth hlimit => absurd (hdepth.trans hlimit) hj.not_ge⟩
  | succ n => exact h n (Nat.le_succ n)

/-! ### Simple values -/

theorem string (s : String) : Decodes limit Decoder.string (.string s) s :=
  ⟨settles_string s, fun _ _ _ => text_pieces s⟩

theorem bool (b : Bool) : Decodes limit Decoder.bool (.bool b) b :=
  ⟨fun _ _ => rfl, fun _ _ _ => rfl⟩

theorem unsigned {bound n : ℕ} (h : n < bound) (hbound : bound ≤ UInt64.size) (name : String) :
    Decodes limit (Decoder.unsigned bound name) (.number n) n := by
  have hn := h.trans_le hbound
  refine ⟨settles_number hn, fun _ _ _ => ?_⟩
  rw [draft, Decoder.unsigned, value_numeral hn]
  exact if_pos h

theorem word [Vocabulary α] (a : α) :
    Decodes limit Decoder.word (.string (Vocabulary.word a)) a := by
  refine ⟨settles_string _, fun _ _ _ => ?_⟩
  rw [draft, Decoder.word, text_pieces]
  change ofWord (Vocabulary.word a) = .ok a
  rw [ofWord, Vocabulary.ofWord?_word]

/-- What may be left open is decoded when it is there. -/
theorem optional (h : Decodes limit decode j a) (hj : j ≠ .null) :
    Decodes limit (Decoder.optional decode) j (some a) := by
  refine ⟨h.settles, fun p hdepth hlimit => ?_⟩
  rw [optional_draft hj, h.decode p hdepth hlimit]
  rfl

theorem optional_null : Decodes limit (Decoder.optional decode) .null none :=
  ⟨fun _ _ => rfl, fun _ _ _ => rfl⟩

/-! ### Lists -/

theorem forall₂_map {encode : α → Json} (as : List α)
    (h : ∀ a ∈ as, Decodes limit decode (encode a) a) :
    List.Forall₂ (Decodes limit decode) (as.map encode) as :=
  List.forall₂_map_left_iff.2 (List.forall₂_same.2 h)

theorem settles_items {js : List Json} {as : List α}
    (h : List.Forall₂ (Decodes limit decode) js as) : ∀ j ∈ js, j.Settles := by
  induction h with
  | nil => exact nofun
  | cons hitem _ ih =>
    intro j hj
    obtain rfl | hj := List.mem_cons.1 hj
    · exact hitem.settles
    · exact ih j hj

theorem mapM_drafts {js : List Json} {as : List α} (h : List.Forall₂ (Decodes limit decode) js as)
    {p : Place} (hdepth : itemsDepth js ≤ p.depth) (hlimit : p.depth ≤ limit) :
    (drafts js).mapM (decode p) = .ok as := by
  induction h with
  | nil => rfl
  | cons hitem _ ih =>
    obtain ⟨hhead, htail⟩ := Nat.max_le.1 hdepth
    rw [drafts, List.mapM_cons, hitem.decode p hhead hlimit, ih htail]
    rfl

theorem list {js : List Json} {as : List α} (h : List.Forall₂ (Decodes limit decode) js as) :
    Decodes limit (Decoder.list decode) (.array js) as := by
  refine ⟨settles_array (settles_items h), fun p hdepth hlimit => ?_⟩
  obtain ⟨setAside, room⟩ := p
  obtain ⟨room, rfl⟩ := Nat.exists_eq_add_one_of_ne_zero (Nat.ne_zero_of_lt hdepth)
  let inner : Place := { setAside, depth := room }
  have hitems : (drafts js).mapM (decode inner) = .ok as :=
    mapM_drafts h (Nat.le_of_succ_le_succ hdepth) (Nat.le_of_succ_le hlimit)
  rw [draft, Decoder.list]
  change ((drafts js).mapM (decode inner) >>= _) = _
  rw [hitems]
  rfl

end Decodes

/-! ### Records -/

/-- A member is read into its field, which is not set yet, before those that follow it. -/
theorem readMembers_cons {fields : List (RecordField ρ)} {key name : String} {required : Bool}
    {get : ρ → Option α} {put : ρ → α → ρ} {decode : Decoder α} {r : ρ}
    (hfind : fields.find? (·.name == key) = some (field name required get put decode))
    (hunset : get r = none) {p : Place} {j : Json} {given : List (String × Json)} :
    Decoder.readMembers fields p (memberDrafts ((key, j) :: given)) r =
      (put r <$> decode p j.draft >>= Decoder.readMembers fields p (memberDrafts given)) := by
  have hset : (field name required get put decode).isSet r = false := by
    change (get r).isSome = false
    rw [hunset]
    rfl
  rw [memberDrafts, Decoder.readMembers, Draft.keyText, text_pieces]
  dsimp only [bind, Except.bind]
  rw [hfind]
  dsimp only
  rw [hset]
  rfl

/-- The members of an object fill the record `r` so that it becomes `r'`. -/
structure Fills (limit : ℕ) (fields : List (RecordField ρ)) (given : List (String × Json))
    (r r' : ρ) : Prop where
  settles : ∀ m ∈ given, m.2.Settles
  read : ∀ p : Place, membersDepth given ≤ p.depth → p.depth ≤ limit →
    Decoder.readMembers fields p (memberDrafts given) r = .ok r'

namespace Fills

variable {fields : List (RecordField ρ)} {given : List (String × Json)} {r r' : ρ}

theorem nil : Fills limit fields [] r r := ⟨nofun, fun _ _ _ => rfl⟩

/-- A member is read into a field that is not set yet. -/
theorem cons {key name : String} {required : Bool} {get : ρ → Option α} {put : ρ → α → ρ}
    {decode : Decoder α} {j : Json} {a : α}
    (hfind : fields.find? (·.name == key) = some (field name required get put decode))
    (hunset : get r = none) (h : Decodes limit decode j a)
    (hrest : Fills limit fields given (put r a) r') :
    Fills limit fields ((key, j) :: given) r r' := by
  refine ⟨fun m hm => ?_, fun p hdepth hlimit => ?_⟩
  · obtain rfl | hm := List.mem_cons.1 hm
    · exact h.settles
    · exact hrest.settles m hm
  · obtain ⟨hhead, htail⟩ := Nat.max_le.1 hdepth
    rw [readMembers_cons hfind hunset, h.decode p hhead hlimit]
    exact hrest.read p htail hlimit

/-- The members are read, and none that is required is missing. -/
theorem members (h : Fills limit fields given r r')
    (hall : (fields.find? fun f => f.required && !f.isSet r') = none) (p : Place)
    (hdepth : membersDepth given ≤ p.depth) (hlimit : p.depth ≤ limit) :
    Decoder.members fields r p (memberDrafts given) .closed = .ok r' := by
  rw [Decoder.members, h.read p hdepth hlimit]
  dsimp only [bind, Except.bind]
  rw [hall]
  rfl

/-- An object is decoded as the record that its members fill. -/
theorem record (h : Fills limit fields given r r')
    (hall : (fields.find? fun f => f.required && !f.isSet r') = none) (name : String) :
    Decodes (limit + 1) (Decoder.record name fields r) (.object given) r' := by
  refine ⟨settles_object h.settles, fun p hdepth hlimit => ?_⟩
  obtain ⟨setAside, room⟩ := p
  obtain ⟨room, rfl⟩ := Nat.exists_eq_add_one_of_ne_zero (Nat.ne_zero_of_lt hdepth)
  rw [draft, Decoder.record]
  exact h.members hall { setAside, depth := room } (Nat.le_of_succ_le_succ hdepth)
    (Nat.le_of_succ_le_succ hlimit)

/-- An object is decoded as what is made of the record. -/
theorem decodes (r' : ρ) (h : Fills limit fields given r r')
    (hall : (fields.find? fun f => f.required && !f.isSet r') = none) {name : String} (f : ρ → β)
    {b : β} (hb : f r' = b) :
    Decodes (limit + 1) (fun p d => do return f (← Decoder.record name fields r p d))
      (.object given) b :=
  (h.record hall name).map f hb

end Fills

/-- A text that is read as the draft of a value is decoded. -/
theorem decodeText_eq {decode : Decoder α} {j : Json} {a : α} {cs : List Char}
    (h : Decodes maxDepth decode j a) (hdepth : j.depth ≤ maxDepth)
    (hread : Draft.read cs = (j.draft, some [])) : decodeText decode cs = .ok a := by
  rw [decodeText, hread]
  change (decode {} j.draft >>= _) = _
  rw [h.decode {} hdepth le_rfl]
  rfl

end CobolFlow.Json
