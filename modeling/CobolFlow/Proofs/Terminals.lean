import CobolFlow.Proofs.Faultless.Graph
import CobolFlow.Graph.Walk

/-!
# The blocks where a walk ends

`Graph.terminals` works a stack off and never enters the block that it is told to stop at. It
finds, each once, exactly the blocks without successors that a trail from the start leads to, a
trail being a path none of whose blocks is forbidden.

The invariant of the walk is stated on what is still to be found: a block without successors is
found already, or some block of the stack leads to it over blocks that are neither marked nor
forbidden. Marking a block keeps this true because a trail through the block can be cut after its
last visit to it.

## Main results

* `Graph.mem_terminals_iff` — what a walk finds
-/

namespace CobolFlow

namespace Graph

variable {g : Graph}

/-- Some edge of `b` leads to `c`. -/
def Leads (g : Graph) (b c : BlockId) : Prop :=
  ∃ block s, g.blocks[b]? = some block ∧ s ∈ block.successors ∧ g.slots[s]? = some c

/-- A path all of whose blocks are allowed. -/
inductive Trail (g : Graph) (allowed : BlockId → Prop) : BlockId → BlockId → Prop
  | refl {b} (hb : allowed b) : Trail g allowed b b
  | step {a b c} (ha : allowed a) (hab : g.Leads a b) (hbc : Trail g allowed b c) :
    Trail g allowed a c

namespace Trail

variable {allowed : BlockId → Prop} {a b c : BlockId}

theorem allowed_start (h : Trail g allowed a b) : allowed a := by
  cases h <;> assumption

theorem mono {allowed' : BlockId → Prop} (hle : ∀ x, allowed x → allowed' x)
    (h : Trail g allowed a b) : Trail g allowed' a b := by
  induction h with
  | refl hb => exact .refl (hle _ hb)
  | step ha hab _ ih => exact .step (hle _ ha) hab ih

/-- A trail can be cut after its last visit to a block. -/
theorem cut (h : Trail g allowed a c) (hc : c ≠ b) :
    Trail g (fun x => allowed x ∧ x ≠ b) a c ∨
      ∃ d, g.Leads b d ∧ Trail g (fun x => allowed x ∧ x ≠ b) d c := by
  induction h with
  | refl ha => exact .inl (.refl ⟨ha, hc⟩)
  | @step a d c ha had _ ih =>
    obtain hd | hd := ih hc
    · by_cases hab : a = b
      · exact .inr ⟨d, hab ▸ had, hd⟩
      · exact .inl (.step ⟨ha, hab⟩ had hd)
    · exact .inr hd

end Trail

/-! ### Successors -/

theorem leads_iff_of_getElem? {b c : BlockId} {block : Block} (hb : g.blocks[b]? = some block) :
    g.Leads b c ↔ ∃ s ∈ block.successors, g.slots[s]? = some c := by
  constructor
  · rintro ⟨block', s, hb', hs, hc⟩
    obtain rfl : block = block' := by simpa [hb] using hb'
    exact ⟨s, hs, hc⟩
  · rintro ⟨s, hs, hc⟩
    exact ⟨block, s, hb, hs, hc⟩

/-- The targets of the edges of a block can be read. -/
theorem Checked.exists_targets (hg : g.Checked) {b : BlockId} {block : Block}
    (hb : g.blocks[b]? = some block) :
    ∃ targets, block.successors.mapM g.target = .ok targets ∧ ∀ c, c ∈ targets ↔ g.Leads b c := by
  simp only [leads_iff_of_getElem? hb]
  have hslots := fun s => hg.target hb s
  generalize block.successors = slots at hslots
  induction slots with
  | nil => exact ⟨[], rfl, by simp⟩
  | cons s slots ih =>
    obtain ⟨c, hc, -⟩ := hslots s (by simp)
    obtain ⟨targets, htargets, hmem⟩ := ih fun t ht => hslots t (by simp [ht])
    refine ⟨c :: targets, ?_, fun d => by simp [hmem, hc, eq_comm]⟩
    rw [List.mapM_cons, (g.target_eq_ok_iff s c).2 hc, htargets]
    rfl

theorem Leads.lt_size (hg : g.Checked) {b c : BlockId} (h : g.Leads b c) : c < g.size := by
  obtain ⟨block, s, hb, hs, hc⟩ := h
  obtain ⟨c', hc', hlt⟩ := hg.target hb s hs
  obtain rfl : c = c' := by simpa [hc] using hc'
  exact hlt

/-- A block without successors is one that leads nowhere. -/
theorem successors_eq_nil_iff (hg : g.Checked) {b : BlockId} {block : Block}
    (hb : g.blocks[b]? = some block) : block.successors = [] ↔ ∀ c, ¬ g.Leads b c := by
  refine ⟨fun h c hc => ?_, fun h => List.eq_nil_iff_forall_not_mem.2 fun s hs => ?_⟩
  · rw [leads_iff_of_getElem? hb, h] at hc
    simp at hc
  · obtain ⟨c, hc, -⟩ := hg.target hb s hs
    exact h c ((leads_iff_of_getElem? hb).2 ⟨s, hs, hc⟩)

/-! ### The walk -/

/-- What a walk that has marked `seen` may still enter. -/
def Open (stop : Option BlockId) (seen : Seen) (b : BlockId) : Prop :=
  seen[b]? = some false ∧ some b ≠ stop

theorem open_set_iff {stop : Option BlockId} {seen : Seen} {b : BlockId} (h : b < seen.size)
    (c : BlockId) : Open stop (seen.set b true) c ↔ Open stop seen c ∧ c ≠ b := by
  by_cases hc : c = b
  · simp [Open, hc, h]
  · simp [Open, hc, Ne.symm hc]

/-- A block without a way on ends the trail through it, so marking it loses no other end. -/
theorem exists_trail_cons_of_dead {stop : Option BlockId} {seen : Seen} {b t : BlockId}
    {rest : List BlockId} (hb : Open stop seen b) (hdead : ∀ c, ¬ g.Leads b c) :
    (∃ c ∈ b :: rest, Trail g (Open stop seen) c t) ↔
      t = b ∨ ∃ c ∈ rest, Trail g (fun x => Open stop seen x ∧ x ≠ b) c t := by
  constructor
  · rintro ⟨c, hc, htrail⟩
    by_cases htb : t = b
    · exact .inl htb
    obtain h | ⟨d, hbd, -⟩ := htrail.cut htb
    · refine .inr ⟨c, (List.mem_cons.1 hc).resolve_left fun hcb => ?_, h⟩
      exact h.allowed_start.2 hcb
    · exact absurd hbd (hdead d)
  · rintro (rfl | ⟨c, hc, htrail⟩)
    · exact ⟨t, by simp, .refl hb⟩
    · exact ⟨c, by simp [hc], htrail.mono fun _ h => h.1⟩

/-- The trails through a block with a way on go on from one of its successors. -/
theorem exists_trail_cons_of_leads {stop : Option BlockId} {seen : Seen} {b t : BlockId}
    {rest targets : List BlockId} (hb : Open stop seen b)
    (htargets : ∀ c, c ∈ targets ↔ g.Leads b c) (htb : t ≠ b) :
    (∃ c ∈ b :: rest, Trail g (Open stop seen) c t) ↔
      ∃ c ∈ targets ++ rest, Trail g (fun x => Open stop seen x ∧ x ≠ b) c t := by
  constructor
  · rintro ⟨c, hc, htrail⟩
    obtain h | ⟨d, hbd, h⟩ := htrail.cut htb
    · have hcr : c ∈ rest :=
        (List.mem_cons.1 hc).resolve_left fun hcb => h.allowed_start.2 hcb
      exact ⟨c, by simp [hcr], h⟩
    · exact ⟨d, by simp [(htargets d).2 hbd], h⟩
  · rintro ⟨c, hc, htrail⟩
    have htrail' : Trail g (Open stop seen) c t := htrail.mono fun _ h => h.1
    obtain hc | hc := List.mem_append.1 hc
    · exact ⟨b, by simp, .step hb ((htargets c).1 hc) htrail'⟩
    · exact ⟨c, by simp [hc], htrail'⟩

/-- What is found is what was found before, and the ends of the trails from the stack. -/
theorem exists_collectTerminals_eq_ok (hg : g.Checked) (stop : Option BlockId)
    (stack : List BlockId) (seen : Seen) (found : List BlockId) (hseen : seen.size = g.size)
    (hstack : ∀ b ∈ stack, b < g.size) :
    ∃ ends, g.collectTerminals stop stack seen found = .ok ends ∧
      ∀ t, t ∈ ends ↔ t ∈ found ∨
        (∀ c, ¬ g.Leads t c) ∧ ∃ b ∈ stack, Trail g (Open stop seen) b t := by
  fun_induction collectTerminals g stop stack seen found with
  | case1 seen found => exact ⟨_, rfl, by simp⟩
  | case2 seen found b rest hb hclosed ih =>
    obtain ⟨ends, hends, hmem⟩ := ih hseen fun c hc => hstack c (by simp [hc])
    refine ⟨ends, hends, fun t => ?_⟩
    have hno : ¬ Trail g (Open stop seen) b t := fun h => by
      obtain ⟨hfalse, hstop⟩ := h.allowed_start
      simp_all
    simp [hmem, hno]
  | case3 seen found b rest hb hopen ih₁ ih₂ =>
    obtain ⟨block, hok, hblock⟩ := exists_block_eq_ok (hstack b (by simp))
    obtain ⟨targets, htargets, htmem⟩ := hg.exists_targets hblock
    have hb' : Open stop seen b := by
      simpa only [Open, Array.getElem?_eq_getElem hb, Option.some.injEq, Bool.or_eq_true,
        beq_iff_eq, not_or, Bool.not_eq_true] using hopen
    have hrest : ∀ c ∈ rest, c < g.size := fun c hc => hstack c (by simp [hc])
    have hset : Open stop (seen.set b true) = fun x => Open stop seen x ∧ x ≠ b :=
      funext fun x => propext (open_set_iff hb x)
    by_cases hnil : block.successors = []
    · obtain ⟨ends, hends, hmem⟩ := ih₁ (by simpa using hseen) hrest
      refine ⟨ends, by simpa [hok, hnil] using hends, fun t => ?_⟩
      have hdead := (successors_eq_nil_iff hg hblock).1 hnil
      rw [hmem, hset, exists_trail_cons_of_dead hb' hdead, List.mem_cons]
      constructor
      · rintro ((rfl | h) | ⟨h, htrail⟩)
        · exact .inr ⟨hdead, .inl rfl⟩
        · exact .inl h
        · exact .inr ⟨h, .inr htrail⟩
      · rintro (h | ⟨h, rfl | htrail⟩)
        · exact .inl (.inr h)
        · exact .inl (.inl rfl)
        · exact .inr ⟨h, htrail⟩
    · have htlt : ∀ c ∈ targets ++ rest, c < g.size := fun c hc => by
        obtain hc | hc := List.mem_append.1 hc
        · exact ((htmem c).1 hc).lt_size hg
        · exact hrest c hc
      obtain ⟨ends, hends, hmem⟩ := ih₂ targets (by simpa using hseen) htlt
      refine ⟨ends, by simpa [hok, hnil, htargets] using hends, fun t => ?_⟩
      rw [hmem, hset]
      refine or_congr_right (and_congr_right fun hdead => ?_)
      refine (exists_trail_cons_of_leads hb' htmem ?_).symm
      rintro rfl
      exact hnil ((successors_eq_nil_iff hg hblock).2 hdead)
  | case4 seen found b rest hb => exact absurd (hseen ▸ hstack b (by simp)) hb

/-- Blocks without successors that a trail from `start` leads to without entering `stop`. -/
theorem exists_terminals_eq_ok (hg : g.Checked) {start : BlockId} (hstart : start < g.size)
    (stop : Option BlockId) :
    ∃ ends, g.terminals start stop = .ok ends ∧ ∀ t, t ∈ ends ↔
      (∀ c, ¬ g.Leads t c) ∧ Trail g (fun x => some x ≠ stop) start t := by
  obtain ⟨ends, hends, hmem⟩ := exists_collectTerminals_eq_ok hg stop [start] (.fresh g.size) []
    (by simp [Seen.fresh]) (by simpa using hstart)
  refine ⟨ends, hends, fun t => ?_⟩
  simp only [hmem, List.not_mem_nil, false_or, List.mem_singleton, exists_eq_left]
  refine and_congr_right' ⟨fun h => h.mono fun _ hx => hx.2, fun h => ?_⟩
  clear hends hmem
  induction h with
  | refl hb => exact .refl ⟨by simp [Seen.fresh, hstart], hb⟩
  | step ha hab _ ih =>
    exact .step ⟨by simp [Seen.fresh, hstart], ha⟩ hab (ih (hab.lt_size hg))

/-- A walk finds exactly the blocks without successors that it can get to. -/
theorem mem_terminals_iff (hg : g.Checked) {start : BlockId} (hstart : start < g.size)
    {stop : Option BlockId} {ends : List BlockId} (h : g.terminals start stop = .ok ends)
    {t : BlockId} : t ∈ ends ↔
      (∀ c, ¬ g.Leads t c) ∧ Trail g (fun x => some x ≠ stop) start t := by
  obtain ⟨ends', h', hmem⟩ := exists_terminals_eq_ok hg hstart stop
  obtain rfl : ends = ends' := by simpa [h] using h'
  exact hmem t

theorem Trail.lt_size (hg : g.Checked) {allowed : BlockId → Prop} {a b : BlockId}
    (h : Trail g allowed a b) (ha : a < g.size) : b < g.size := by
  induction h with
  | refl => exact ha
  | step _ hab _ ih => exact ih (hab.lt_size hg)

/-! ### Ends within a set of blocks -/

theorem exists_terminalsWithin_eq_ok (hg : g.Checked) {members : List BlockId}
    (h : ∀ b ∈ members, b < g.size) :
    ∃ ends, g.terminalsWithin members = .ok ends ∧ ∀ b ∈ ends, b ∈ members := by
  refine exists_filterM_eq_ok fun b hb => ?_
  obtain ⟨block, hok, hblock⟩ := exists_block_eq_ok (h b hb)
  obtain ⟨leads, hleads⟩ := exists_anyM_eq_ok (l := block.successors)
    (f := fun slot => return members.contains (← g.target slot)) fun slot hslot => by
      obtain ⟨c, hc, -⟩ := hg.target hblock slot hslot
      exact ⟨members.contains c, by rw [(g.target_eq_ok_iff slot c).2 hc]; rfl⟩
  exact ⟨!leads, by rw [hok, ok_bind, hleads]; rfl⟩

end Graph

end CobolFlow
