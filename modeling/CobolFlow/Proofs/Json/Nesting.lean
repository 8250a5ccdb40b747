import CobolFlow.Proofs.Faultless
import CobolFlow.Proofs.Json.Decoding
import CobolFlow.Tree.Encode

/-!
# How deep a value is nested

Two things are said about how many containers stand in each other, again for each shape of decoder.

What a decoder makes of a draft may be written with containers that the draft left out, but they
come one at a time: a decoder *confines* what it makes if it is written at most one container
deeper than it was given, and than there was room for. Members that are passed over may be nested
as deep as they like, so the draft alone would not be enough of a bound, and neither would the room.

A written value for which there is no room is refused, and for no other reason. A value is checked
for it when it is set aside, so this is said of values that are read directly.

## Main definitions

* `Draft.depth`, `nesting` — how many containers stand in each other in a draft and in a text
* `Confines` — a decoder that makes nothing much deeper than what it is given
* `Shallow` — fields that make no record much deeper than what they are read from
* `Measures` — a decoder that makes a thing of a value, or refuses it where it is too deep
* `Fits` — members that fill a record, or are refused

## Main results

* `Confines.list`, `Confines.orNull`, `Confines.record` — one for each shape of decoder
* `settle_draft` — what becomes of a written value that is set aside
* `Measures.list`, `Measures.orNull`, `Fits.measures` — one for each shape of decoder
* `Measures.decodeText_eq` — a whole text
-/

namespace CobolFlow.Json

/-! ### Drafts -/

namespace Draft

mutual

/-- How many containers stand in each other. -/
def depth : Draft → ℕ
  | .array items _ => itemsDepth items + 1
  | .object members _ => membersDepth members + 1
  | _ => 0

def itemsDepth : List Draft → ℕ
  | [] => 0
  | item :: rest => max (depth item) (itemsDepth rest)

def membersDepth : List (Draft × Draft) → ℕ
  | [] => 0
  | (_, value) :: rest => max (depth value) (membersDepth rest)

end

theorem depth_le_itemsDepth {item : Draft} {items : List Draft} (h : item ∈ items) :
    item.depth ≤ itemsDepth items := by
  induction items with
  | nil => cases h
  | cons head rest ih =>
    obtain rfl | h := List.mem_cons.1 h
    · exact Nat.le_max_left _ _
    · exact (ih h).trans (Nat.le_max_right _ _)

theorem membersDepth_le_iff {members : List (Draft × Draft)} {n : ℕ} :
    membersDepth members ≤ n ↔ ∀ m ∈ members, m.2.depth ≤ n := by
  induction members with
  | nil => exact iff_of_true (Nat.zero_le n) nofun
  | cons m rest ih => rw [membersDepth, Nat.max_le, ih, List.forall_mem_cons]

end Draft

/-- How many containers stand in each other in the value of a text. -/
def nesting (text : List Char) : ℕ := (Draft.read text).1.depth

mutual

theorem depth_draft : ∀ j : Json, j.draft.depth = j.depth
  | .null | .bool _ | .number _ | .string _ => rfl
  | .array items => congrArg (· + 1) (itemsDepth_drafts items)
  | .object members => congrArg (· + 1) (membersDepth_memberDrafts members)

theorem itemsDepth_drafts : ∀ items : List Json, Draft.itemsDepth (drafts items) = itemsDepth items
  | [] => rfl
  | item :: rest => congrArg₂ max (depth_draft item) (itemsDepth_drafts rest)

theorem membersDepth_memberDrafts : ∀ members : List (String × Json),
    Draft.membersDepth (memberDrafts members) = membersDepth members
  | [] => rfl
  | (_, j) :: rest => congrArg₂ max (depth_draft j) (membersDepth_memberDrafts rest)

end

/-- A value is nested in its text as deep as it is. -/
theorem nesting_compact (j : Json) : nesting j.compact = j.depth := by
  rw [nesting, read_compact, depth_draft]

theorem itemsDepth_le_iff {items : List Json} {n : ℕ} :
    itemsDepth items ≤ n ↔ ∀ j ∈ items, j.depth ≤ n := by
  induction items with
  | nil => exact iff_of_true (Nat.zero_le n) nofun
  | cons j rest ih => rw [itemsDepth, Nat.max_le, ih, List.forall_mem_cons]

/-! ### What a decoder makes is not much deeper -/

open Decoder

variable {α β ρ : Type}

theorem Place.depth_of_enter_eq_ok {p inner : Place} (h : p.enter = .ok inner) :
    p.depth = inner.depth + 1 := by
  obtain ⟨setAside, depth⟩ := p
  cases depth with
  | zero => cases h
  | succ depth =>
    obtain rfl := Except.ok.inj h
    rfl

theorem exists_of_map_eq_ok {x : Except ReadError α} {f : α → β} {b : β} (h : f <$> x = .ok b) :
    ∃ a, x = .ok a ∧ f a = b := by
  cases x with
  | error e => cases h
  | ok a => exact ⟨a, rfl, Except.ok.inj h⟩

theorem Draft.unwanted_ne_ok {d : Draft} {wanted : String} {a : α} :
    d.unwanted wanted ≠ .ok a := by
  intro h
  obtain ⟨_, -, h⟩ := exists_of_bind_eq_ok h
  cases h

/-- What is made of a draft is written at most one container deeper than the draft is, and than
there is room for. -/
def Confines (decode : Decoder α) (encode : α → Json) : Prop :=
  ∀ p d a, decode p d = .ok a → (encode a).depth ≤ min p.depth d.depth + 1

/-- Reading a field does not make a record deeper, by the given measure, than a container around
what is written for the field. -/
def Shallow (measure : ρ → ℕ) (fields : List (RecordField ρ)) : Prop :=
  ∀ f ∈ fields, ∀ {r p d r'}, f.read r p d = .ok r' →
    measure r' ≤ max (measure r) (min p.depth d.depth + 2)

namespace Confines

variable {decode : Decoder α} {encode : α → Json}

theorem of_depth_le_one (h : ∀ a, (encode a).depth ≤ 1) : Confines decode encode :=
  fun _ _ a _ => (h a).trans (Nat.le_add_left 1 _)

theorem string : Confines Decoder.string Json.string := fun _ _ _ _ => Nat.zero_le _

theorem bool : Confines Decoder.bool Json.bool := fun _ _ _ _ => Nat.zero_le _

theorem word [Vocabulary α] : Confines Decoder.word (wordJson : α → Json) :=
  fun _ _ _ _ => Nat.zero_le _

theorem orNull (h : Confines decode encode) :
    Confines (Decoder.optional decode) (Json.orNull encode) := by
  intro p d x hd
  cases x with
  | none => exact Nat.zero_le _
  | some a =>
    have hd : decode p d = .ok a := by
      cases d with
      | null => cases hd
      | _ =>
        change some <$> decode p _ = _ at hd
        obtain ⟨_, hdecode, ha⟩ := exists_of_map_eq_ok hd
        rwa [Option.some.inj ha] at hdecode
    exact h p d a hd

theorem list (h : Confines decode encode) :
    Confines (Decoder.list decode) fun as => .array (as.map encode) := by
  intro p d as hd
  cases d with
  | array items ending =>
    obtain ⟨inner, hinner, hd⟩ := exists_of_bind_eq_ok hd
    obtain ⟨values, hvalues, hd⟩ := exists_of_bind_eq_ok hd
    obtain ⟨_, -, hd⟩ := exists_of_bind_eq_ok hd
    obtain rfl := Except.ok.inj hd
    have hitems : itemsDepth (values.map encode) ≤
        min inner.depth (Draft.itemsDepth items) + 1 := by
      refine itemsDepth_le_iff.2 (List.forall_mem_map.2 fun a ha => ?_)
      obtain ⟨item, -, hitem, ha⟩ := exists_of_forall₂_of_mem (forall₂_of_mapM_eq_ok hvalues) ha
      have := Draft.depth_le_itemsDepth hitem
      have := h _ _ _ ha
      omega
    have := Place.depth_of_enter_eq_ok hinner
    simp only [depth, Draft.depth]
    omega
  | _ => exact absurd hd Draft.unwanted_ne_ok

end Confines

/-! ### Records -/

namespace Shallow

variable {measure : ρ → ℕ} {fields : List (RecordField ρ)} {p : Place} {r r' : ρ}

theorem nil : Shallow measure [] := nofun

theorem cons {decode : Decoder α} {encode : α → Json} {name : String} {required : Bool}
    {get : ρ → Option α} {put : ρ → α → ρ} (h : Confines decode encode)
    (hput : ∀ r a, measure (put r a) ≤ max (measure r) ((encode a).depth + 1))
    (hrest : Shallow measure fields) :
    Shallow measure (field name required get put decode :: fields) := by
  refine List.forall_mem_cons.2 ⟨fun {r p d r'} hr => ?_, hrest⟩
  obtain ⟨a, ha, rfl⟩ := exists_of_map_eq_ok hr
  have := hput r a
  have := h _ _ _ ha
  omega

/-- Records that are never deep take no argument. -/
theorem of_le_two (h : ∀ r, measure r ≤ 2) : Shallow measure fields :=
  fun _ _ {_ _ _ r'} _ => (h r').trans ((Nat.le_add_left 2 _).trans (Nat.le_max_right _ _))

theorem readMembers_le (hfields : Shallow measure fields) {given : List (Draft × Draft)}
    (h : readMembers fields p given r = .ok r') :
    measure r' ≤ max (measure r) (min p.depth (Draft.membersDepth given) + 2) := by
  induction given generalizing r with
  | nil =>
    obtain rfl := Except.ok.inj h
    exact Nat.le_max_left _ _
  | cons m rest ih =>
    obtain ⟨key, value⟩ := m
    obtain ⟨name, -, h⟩ := exists_of_bind_eq_ok h
    rw [Draft.membersDepth]
    split at h
    · rename_i f hf
      split at h
      · cases h
      · obtain ⟨r₁, hr₁, h⟩ := exists_of_bind_eq_ok h
        have := hfields f (List.mem_of_find?_eq_some hf) hr₁
        have := ih h
        omega
    · obtain ⟨_, -, h⟩ := exists_of_bind_eq_ok h
      have := ih h
      omega

theorem readItems_le (hfields : Shallow measure fields) {items : List Draft}
    {missing : List (RecordField ρ)} {left : List Draft}
    (h : readItems p fields items r = .ok (r', missing, left)) :
    measure r' ≤ max (measure r) (min p.depth (Draft.itemsDepth items) + 2) := by
  fun_induction readItems p fields items r with
  | case1 f fields item rest r ih =>
    obtain ⟨r₁, hr₁, h⟩ := exists_of_bind_eq_ok h
    have := hfields f List.mem_cons_self hr₁
    have := ih r₁ (fun f hf => hfields f (List.mem_cons_of_mem _ hf)) h
    rw [Draft.itemsDepth]
    omega
  | case2 fields items r =>
    cases h
    exact Nat.le_max_left _ _

theorem members_le (hfields : Shallow measure fields) {given : List (Draft × Draft)}
    {ending : Ending} (h : Decoder.members fields r p given ending = .ok r') :
    measure r' ≤ max (measure r) (min p.depth (Draft.membersDepth given) + 2) := by
  obtain ⟨r₁, hread, h⟩ := exists_of_bind_eq_ok h
  obtain ⟨_, -, h⟩ := exists_of_bind_eq_ok h
  split at h
  · cases h
  · obtain rfl := Except.ok.inj h
    exact hfields.readMembers_le hread

end Shallow

/-- What is made of a record is not much deeper, when the fields are not. -/
theorem Confines.record {encode : α → Json} {finish : ρ → α} {fields : List (RecordField ρ)}
    {start : ρ} {name : String} (hstart : (encode (finish start)).depth ≤ 2)
    (hfields : Shallow (fun r => (encode (finish r)).depth) fields) :
    Confines (fun p d => do return finish (← Decoder.record name fields start p d)) encode := by
  intro p d a hd
  obtain ⟨r, hr, ha⟩ := exists_of_bind_eq_ok hd
  obtain rfl := Except.ok.inj ha
  cases d with
  | object given ending =>
    obtain ⟨inner, hinner, hr⟩ := exists_of_bind_eq_ok hr
    have := Place.depth_of_enter_eq_ok hinner
    have := hfields.members_le hr
    rw [Draft.depth]
    omega
  | array items ending =>
    obtain ⟨inner, hinner, hr⟩ := exists_of_bind_eq_ok hr
    obtain ⟨⟨r₁, missing, left⟩, hread, hr⟩ := exists_of_bind_eq_ok hr
    have hr₁ : r₁ = r := by
      dsimp only at hr
      split at hr
      · obtain ⟨_, -, hr⟩ := exists_of_bind_eq_ok hr
        exact Except.ok.inj hr
      · obtain ⟨_, -, hr⟩ := exists_of_bind_eq_ok hr
        split at hr
        · cases hr
        · exact Except.ok.inj hr
    subst hr₁
    have := Place.depth_of_enter_eq_ok hinner
    have := hfields.readItems_le hread
    rw [Draft.depth]
    omega
  | _ => exact absurd hr Draft.unwanted_ne_ok

/-! ### What is too deep is refused -/

mutual

/-- A written value that stands the check somewhere stands it wherever there is room for it, and
is too deep everywhere else. -/
theorem settle_draft : ∀ (j : Json) {room : ℕ}, j.draft.settle room = .ok () → ∀ depth,
    j.draft.settle depth = if j.depth ≤ depth then .ok () else .error .tooDeep
  | .null, _, h, _ | .bool _, _, h, _ | .number _, _, h, _ | .string _, _, h, _ =>
    h.trans (if_pos (Nat.zero_le _)).symm
  | .array items, room, h, depth => by
    cases room with
    | zero => cases h
    | succ room =>
      obtain ⟨_, hitems, -⟩ := exists_of_bind_eq_ok h
      cases depth with
      | zero => exact (if_neg (Nat.not_succ_le_zero _)).symm
      | succ depth =>
        change (Draft.settleItems depth (drafts items) >>= _) = _
        simp only [settleItems_drafts items hitems depth, Json.depth, Nat.succ_le_succ_iff]
        split <;> rfl
  | .object members, room, h, depth => by
    cases room with
    | zero => cases h
    | succ room =>
      obtain ⟨_, hmembers, -⟩ := exists_of_bind_eq_ok h
      cases depth with
      | zero => exact (if_neg (Nat.not_succ_le_zero _)).symm
      | succ depth =>
        change (Draft.settleMembers depth (memberDrafts members) >>= _) = _
        simp only [settleMembers_memberDrafts members hmembers depth, Json.depth,
          Nat.succ_le_succ_iff]
        split <;> rfl

theorem settleItems_drafts : ∀ (items : List Json) {room : ℕ},
    Draft.settleItems room (drafts items) = .ok () → ∀ depth,
      Draft.settleItems depth (drafts items) =
        if itemsDepth items ≤ depth then .ok () else .error .tooDeep
  | [], _, _, _ => (if_pos (Nat.zero_le _)).symm
  | item :: rest, _, h, depth => by
    obtain ⟨_, hitem, hrest⟩ := exists_of_bind_eq_ok h
    simp only [drafts, Draft.settleItems, settle_draft item hitem depth,
      settleItems_drafts rest hrest depth, itemsDepth, Nat.max_le]
    split
    · simp [*]
    · simp [*, bind, Except.bind]

theorem settleMembers_memberDrafts : ∀ (members : List (String × Json)) {room : ℕ},
    Draft.settleMembers room (memberDrafts members) = .ok () → ∀ depth,
      Draft.settleMembers depth (memberDrafts members) =
        if membersDepth members ≤ depth then .ok () else .error .tooDeep
  | [], _, _, _ => (if_pos (Nat.zero_le _)).symm
  | (key, j) :: rest, _, h, depth => by
    obtain ⟨_, hkey, h⟩ := exists_of_bind_eq_ok h
    obtain ⟨_, hj, hrest⟩ := exists_of_bind_eq_ok h
    simp only [memberDrafts, Draft.settleMembers, hkey, ok_bind, settle_draft j hj depth,
      settleMembers_memberDrafts rest hrest depth, membersDepth, Nat.max_le]
    split
    · simp [*]
    · simp [*, bind, Except.bind]

end

variable {limit : ℕ}

/-- Besides making `a` of the value wherever there is room for it, the decoder refuses the value
as too deep where there is not, as long as it reads directly. -/
structure Measures (limit : ℕ) (read : Decoder α) (j : Json) (a : α) : Prop extends
    Decodes limit read j a where
  refuse : ∀ p : Place, p.setAside = false → p.depth < j.depth → p.depth ≤ limit →
    read p j.draft = .error .tooDeep

namespace Measures

variable {decode : Decoder α} {j : Json} {a : α}

theorem mono {limit' : ℕ} (h : Measures limit decode j a) (hle : limit' ≤ limit) :
    Measures limit' decode j a :=
  ⟨h.toDecodes.mono hle, fun p hdirect hdepth hlimit =>
    h.refuse p hdirect hdepth (hlimit.trans hle)⟩

/-- What is no container finds room everywhere. -/
theorem of_flat (h : Decodes limit decode j a) (hj : j.depth = 0) : Measures limit decode j a :=
  ⟨h, fun _ _ hdepth => absurd (hj ▸ hdepth) (Nat.not_lt_zero _)⟩

/-- A decoder that counts how deep it is refuses everything when it has come to the bottom. -/
theorem of_succ {decode : ℕ → Decoder α} (hj : 0 < j.depth)
    (hzero : ∀ p d, decode 0 p d = .error .tooDeep)
    (h : ∀ n ≤ limit, Measures (n + 1) (decode (n + 1)) j a) :
    Measures limit (decode limit) j a := by
  refine ⟨.of_succ hj fun n hn => (h n hn).toDecodes, fun p hdirect hdepth hlimit => ?_⟩
  cases limit with
  | zero => exact hzero p _
  | succ n => exact (h n (Nat.le_succ n)).refuse p hdirect hdepth hlimit

theorem optional (h : Measures limit decode j a) (hj : j ≠ .null) :
    Measures limit (Decoder.optional decode) j (some a) := by
  refine ⟨h.toDecodes.optional hj, fun p hdirect hdepth hlimit => ?_⟩
  rw [optional_draft hj, h.refuse p hdirect hdepth hlimit]
  rfl

theorem orNull {encode : α → Json} (x : Option α) (h : ∀ a, Measures limit decode (encode a) a)
    (hne : ∀ a, encode a ≠ .null) :
    Measures limit (Decoder.optional decode) (Json.orNull encode x) x := by
  cases x with
  | none => exact of_flat .optional_null rfl
  | some a => exact (h a).optional (hne a)

theorem forall₂_map {encode : α → Json} (as : List α)
    (h : ∀ a, Measures limit decode (encode a) a) :
    List.Forall₂ (Measures limit decode) (as.map encode) as :=
  List.forall₂_map_left_iff.2 (List.forall₂_same.2 fun a _ => h a)

theorem mapM_drafts_eq_error {js : List Json} {as : List α}
    (h : List.Forall₂ (Measures limit decode) js as) {p : Place} (hdirect : p.setAside = false)
    (hdepth : p.depth < itemsDepth js) (hlimit : p.depth ≤ limit) :
    (drafts js).mapM (decode p) = .error .tooDeep := by
  induction h with
  | nil => exact absurd hdepth (Nat.not_lt_zero _)
  | @cons j a js as hitem _ ih =>
    rw [drafts, List.mapM_cons]
    obtain hlt | hle := Nat.lt_or_ge p.depth j.depth
    · rw [hitem.refuse p hdirect hlt hlimit]
      rfl
    · have hrest : p.depth < itemsDepth js := by
        rw [itemsDepth] at hdepth
        omega
      rw [hitem.decode p hle hlimit, ok_bind, ih hrest]
      rfl

theorem list {js : List Json} {as : List α} (h : List.Forall₂ (Measures limit decode) js as) :
    Measures limit (Decoder.list decode) (.array js) as := by
  refine ⟨.list (h.imp fun _ _ => toDecodes), fun p hdirect hdepth hlimit => ?_⟩
  obtain ⟨setAside, room⟩ := p
  cases room with
  | zero => rfl
  | succ room =>
    let inner : Place := { setAside, depth := room }
    have hitems : (drafts js).mapM (decode inner) = .error .tooDeep :=
      mapM_drafts_eq_error h hdirect (Nat.lt_of_succ_lt_succ hdepth) (Nat.le_of_succ_le hlimit)
    change ((drafts js).mapM (decode inner) >>= _) = _
    rw [hitems]
    rfl

end Measures

/-! ### Records that are refused -/

/-- Besides filling the record wherever there is room for them, the members are refused as too deep
where there is not. -/
structure Fits (limit : ℕ) (fields : List (RecordField ρ)) (given : List (String × Json))
    (r r' : ρ) : Prop extends Fills limit fields given r r' where
  refuse : ∀ p : Place, p.setAside = false → p.depth < membersDepth given → p.depth ≤ limit →
    Decoder.readMembers fields p (memberDrafts given) r = .error .tooDeep

namespace Fits

variable {fields : List (RecordField ρ)} {given : List (String × Json)} {r r' : ρ}

theorem nil : Fits limit fields [] r r :=
  ⟨.nil, fun _ _ hdepth => absurd hdepth (Nat.not_lt_zero _)⟩

theorem cons {key name : String} {required : Bool} {get : ρ → Option α} {put : ρ → α → ρ}
    {decode : Decoder α} {j : Json} {a : α}
    (hfind : fields.find? (·.name == key) = some (field name required get put decode))
    (hunset : get r = none) (h : Measures limit decode j a)
    (hrest : Fits limit fields given (put r a) r') :
    Fits limit fields ((key, j) :: given) r r' := by
  refine ⟨.cons hfind hunset h.toDecodes hrest.toFills, fun p hdirect hdepth hlimit => ?_⟩
  rw [readMembers_cons hfind hunset]
  obtain hlt | hle := Nat.lt_or_ge p.depth j.depth
  · rw [h.refuse p hdirect hlt hlimit]
    rfl
  · have htail : p.depth < membersDepth given := by
      rw [membersDepth] at hdepth
      omega
    rw [h.decode p hle hlimit]
    exact hrest.refuse p hdirect htail hlimit

/-- An object is decoded as what is made of the record that its members fill, or it is refused. -/
theorem measures (r' : ρ) (h : Fits limit fields given r r')
    (hall : (fields.find? fun f => f.required && !f.isSet r') = none) {name : String} (f : ρ → β)
    {b : β} (hb : f r' = b) :
    Measures (limit + 1) (fun p d => do return f (← Decoder.record name fields r p d))
      (.object given) b := by
  refine ⟨h.toFills.decodes r' hall f hb, fun p hdirect hdepth hlimit => ?_⟩
  obtain ⟨setAside, room⟩ := p
  cases room with
  | zero => rfl
  | succ room =>
    let inner : Place := { setAside, depth := room }
    have hmembers : Decoder.members fields r inner (memberDrafts given) .closed =
        .error .tooDeep := by
      rw [Decoder.members, h.refuse inner hdirect (Nat.lt_of_succ_lt_succ hdepth)
        (Nat.le_of_succ_le_succ hlimit)]
      rfl
    change (Decoder.members fields r inner (memberDrafts given) .closed >>= _) = _
    rw [hmembers]
    rfl

end Fits

/-- A text that is read as the draft of a value is decoded, or it is refused as too deep. -/
theorem Measures.decodeText_eq {decode : Decoder α} {j : Json} {a : α} {cs : List Char}
    (h : Measures maxDepth decode j a) (hread : Draft.read cs = (j.draft, some [])) :
    decodeText decode cs = if j.depth ≤ maxDepth then .ok a else .error .tooDeep := by
  split
  · rename_i hle
    exact Json.decodeText_eq h.toDecodes hle hread
  · rename_i hlt
    rw [decodeText, hread]
    change (decode {} j.draft >>= _) = _
    rw [h.refuse {} rfl (Nat.lt_of_not_le hlt) le_rfl]
    rfl

end CobolFlow.Json
