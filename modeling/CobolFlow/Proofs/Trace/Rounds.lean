import CobolFlow.Proofs.Trace.Closing

/-!
# What a closed search says

When all tests of a search are closed, what follows AT END joins the rest: the end of its branch,
or, if there is none, the body itself. Then what is read from the body is one unknown that occurs
in its own equation, over the root, and `Behaviour.eq_into_search` solves it.

## Main results

* `Closing.fragment` — a search does what `Behaviour.search` says
-/

namespace CobolFlow

/-! ### The end of the table -/

namespace Closing

variable {Γ₀ Γ Δ : Sketch} {phrases : List Instruction} {marks : Departures} {pre : List Branch}
  {main : Branch} {rest : List Rung} {root t : ℕ} {sources : List ℕ} {s : Spot}

/-- After the only test of a search has been closed, what is still open is left by AT END. -/
theorem openEnd_iff_of_begin (hq : Quest Γ₀ Γ phrases marks pre main []) (hroot : Rooted Γ₀ root)
    (hs : s.Blank) (hsources : ∀ b, b ∈ sources ↔
      b ≠ Γ.size ∧ (Γ.fresh s).chart.OpenEnd [main.entry] b) {b : ℕ} (hb : b ≠ Γ.size) :
    ((Γ.join s sources).edge Γ₀.here root).chart.OpenEnd [root] b ↔
      ((Γ.join s sources).edge Γ₀.here root).chart.OpenEnd (pre.map (·.entry)) b := by
  have hmain : main ∈ pre ++ main :: ([] : List Rung).map (·.branch) := by simp
  have hmem : ∀ b, b ∈ sources ↔ b ≠ Γ.size ∧ Γ.chart.OpenEnd [main.entry] b := fun b => by
    rw [hsources, hq.openEnd_fresh hmain]
  have h : Closing Γ₀ Γ ((Γ.join s sources).edge Γ₀.here root) phrases pre main [] root [] :=
    begin hq hroot hs fun b hb => hq.exits_of_openEnd hmain ((hmem b).1 hb).2
  constructor
  · rintro ⟨hnil, hending, e, he, hreach⟩
    obtain rfl := List.mem_singleton.1 he
    have hexit : Exits (pre ++ main :: ([] : List Rung).map (·.branch)) b :=
      (h.exits_or_joint hq hroot (by simp) hreach hnil hending).resolve_right fun hb' => hb
        (Nat.le_antisymm (Nat.le_of_lt_succ hb'.2) hb'.1)
    refine ⟨hnil, hending, ?_⟩
    obtain rfl | rfl | ⟨r, hr, -⟩ | ⟨br, hbr, hbreach⟩ | hb' :=
      h.cases_of_reaches hq hroot (by simp) hreach
    · simp [h.next_root hq hroot] at hnil
    · simp [h.body] at hnil
    · simp at hr
    · obtain hpre | hpre := List.mem_append.1 hbr
      · exact ⟨br.entry, List.mem_map_of_mem hpre, h.reaches_of_reaches hq hroot hbr hbreach⟩
      · -- what the main branch leaves open was led to the joint
        obtain rfl : br = main := by simpa using hpre
        have hend := h.exits b hexit
        obtain ⟨br', hbr', rfl⟩ := hexit
        have hfits := hq.fits br' hbr'
        have hsource : br'.exit ∈ sources := (hmem _).2
          ⟨hb, hfits.next, hfits.ending, _, List.mem_singleton_self _, hbreach⟩
        have hne : br'.exit ≠ Γ₀.here := (hroot.here_lt.trans_le hfits.exit.1.1).ne'
        simp [Sketch.edge, hne, Bundle.chart_join hb, hsource] at hnil
    · exact absurd hb'.1 fun hle => hb (Nat.le_antisymm (Nat.le_of_lt_succ hb'.2) hle)
  · rintro ⟨hnil, hending, e, he, hreach⟩
    obtain ⟨br, hbr, rfl⟩ := List.mem_map.1 he
    exact ⟨hnil, hending, root, List.mem_singleton_self _,
      ((h.reaches_all hq hroot).1 br (by simp [hbr])).trans hreach⟩

/-- Where there is no AT END, the body leads to the joint as well. -/
theorem finish (h : Closing Γ₀ Γ Δ phrases [] main rest root [])
    (hq : Quest Γ₀ Γ phrases marks [] main rest) (hroot : Rooted Γ₀ root)
    (hd : Drained Δ.chart root t (main :: rest.map (·.branch))) (ht : Γ.size ≤ t) :
    Closing Γ₀ Γ (Δ.edge Γ₀.here t) phrases [] main rest root [t] ∧
      Drained (Δ.edge Γ₀.here t).chart root t (main :: rest.map (·.branch)) := by
  have hlt := hroot.here_lt
  have hsize := h.size_le
  have hsize₀ := hq.size_le
  have hkeep : ∀ b, b ≠ Γ₀.here → (Δ.edge Γ₀.here t).chart b = Δ.chart b := fun b hb => by
    simp [Sketch.edge, hb]
  have hsame : ∀ b, (Δ.edge Γ₀.here t).chart b =
      { Δ.chart b with next := ((Δ.edge Γ₀.here t).chart b).next } := fun b => by
    simp only [Sketch.edge]
    split <;> rfl
  have hbody : (Δ.edge Γ₀.here t).chart Γ₀.here = { Δ.chart Γ₀.here with
      next := (Δ.chart Γ₀.here).next ++ [t] } := by simp [Sketch.edge]
  have hexit : ∀ b, Exits ([] ++ main :: rest.map (·.branch)) b → b ≠ Γ₀.here := by
    rintro _ ⟨br, hbr, rfl⟩
    exact (hlt.trans_le (hq.fits br hbr).exit.1.1).ne'
  have hheads : ∀ b, Heads rest b → b ≠ Γ₀.here := fun b hb =>
    (hlt.trans_le (hq.heads b hb).1).ne'
  have hstream : ∀ b, Stream Γ Δ ([] ++ main :: rest.map (·.branch)) b → b ≠ Γ₀.here := by
    rintro b (hb | hb)
    · exact hexit b hb
    · omega
  have ht' : t ≠ Γ₀.here := by omega
  have hflows : ∀ br ∈ [] ++ main :: rest.map (·.branch), br.behaviour.falls ≠ 0 →
      (Δ.edge Γ₀.here t).chart.Flows t br.exit := fun br hbr hfalls =>
    (hd.flows br hbr hfalls).extend (P := Stream Γ Δ _) (.inl ⟨br, hbr, rfl⟩)
      (fun b hb c hc => .inr (h.onto b hb c hc)) (fun b hb _ => by rw [hkeep b (hstream b hb)])
      (fun b _ => by rw [hsame b]) .refl
  have hnil : ((Δ.edge Γ₀.here t).chart t).next = [] := by rw [hkeep t ht', hd.next]
  have hending : ((Δ.edge Γ₀.here t).chart t).flags.ending = false := by rw [hsame t, hd.ending]
  refine ⟨⟨hsize, fun b hb hb' hhead hex => ?_, ?_, ?_, fun b hb => ?_, fun b hb => ?_,
    fun b hb hb' => ?_, fun b hb => ?_, fun br hbr hfalls => ⟨t, hflows br hbr hfalls, hnil,
    hending⟩⟩, ⟨hnil, hending, hflows, fun b hb hbnil => ?_⟩⟩
  · rw [hkeep b hb', h.firm b hb hb' hhead hex]
  · rw [hbody, h.body]
    simp
  · exact h.spine.congr fun b hb => hkeep b (hheads b hb)
  · rw [hsame b, h.heads b hb]
  · rw [hsame b, h.exits b hb]
  · rw [hkeep b (by omega)]
    exact h.joints b hb hb'
  · rw [hkeep b (hstream b hb)]
    exact h.onto b hb
  · have hreach : Δ.chart.Reaches root b ∨ b = t := by
      refine hb.mem (P := fun b => Δ.chart.Reaches root b ∨ b = t) (.inl .refl) ?_
      rintro b (hb | rfl) c hc
      · by_cases hbody' : b = Γ₀.here
        · rw [hbody', hbody] at hc
          obtain hc | hc := List.mem_append.1 hc
          · exact .inl (hb.tail (hbody' ▸ hc))
          · exact .inr (List.mem_singleton.1 hc)
        · rw [hkeep b hbody'] at hc
          exact .inl (hb.tail hc)
      · simp [hnil] at hc
    obtain hreach | hreach := hreach
    · have hb' : b ≠ Γ₀.here := by
        rintro rfl
        simp [hbody] at hbnil
      rw [hkeep b hb'] at hbnil ⊢
      exact hd.eq_or_ending b hreach hbnil
    · exact .inl hreach

end Closing

namespace Behaviour

theorem exists_falls_of_tests {whens : List (List Instruction × Behaviour)}
    (h : (tests whens).falls ≠ 0) : ∃ w ∈ whens, w.2.falls ≠ 0 := by
  induction whens with
  | nil => exact absurd rfl h
  | cons w rest ih =>
    obtain ⟨phrases, B⟩ := w
    by_cases hB : B.falls = 0
    · obtain ⟨w, hw, hne⟩ := ih fun hrest => h (by simp [tests, saying, after, hB, hrest])
      exact ⟨w, by simp [hw], hne⟩
    · exact ⟨_, List.mem_cons_self, hB⟩

end Behaviour

namespace Closing

variable {Γᵣ Γ Δ : Sketch} {phrases : List Instruction} {marks : Departures} {pre : List Branch}
  {main : Branch} {rest : List Rung} {t : ℕ} {post : List ℕ} {s : Spot} {i : Instruction}
  {G : Chart} {K : Exit → Language Instruction}

/-- The tests of a search as they are written. -/
def whens (main : Branch) (phrases : List Instruction) (rest : List Rung) :
    List (List Instruction × Behaviour) :=
  (phrases, main.behaviour) :: rest.map fun r => (r.phrases, r.branch.behaviour)

section Fragment

variable (h₀ : Γᵣ.Open) (hs : s.Blank)
  (hq : Quest (Γᵣ.branch Γᵣ.here s) Γ phrases marks pre main rest)
  (h : Closing (Γᵣ.branch Γᵣ.here s) Γ Δ phrases pre main rest Γᵣ.here post)

include h₀ in
theorem rooted : Rooted (Γᵣ.branch Γᵣ.here s) Γᵣ.here := by
  have hlt := h₀.here_lt
  have hne : Γᵣ.here ≠ Γᵣ.size := hlt.ne
  refine ⟨Nat.lt_succ_self _, hlt.trans (Nat.lt_succ_self _), hne, ?_⟩
  rw [Sketch.chart_branch hne, if_neg hne, if_pos rfl, h₀.next]
  rfl

include h₀ hq h in
theorem chart_root : Δ.chart Γᵣ.here = { Γᵣ.chart Γᵣ.here with next := [Γᵣ.size] } := by
  have hroot := rooted (s := s) h₀
  have hne : Γᵣ.here ≠ Γᵣ.size := h₀.here_lt.ne
  obtain ⟨hhead, hexit⟩ := root_notMem hq hroot
  rw [h.firm _ (hroot.lt.trans_le hq.size_le) hroot.ne hhead hexit, hq.frame _ hroot.lt hroot.ne,
    Sketch.chart_branch hne, if_neg hne, if_pos rfl, h₀.next]
  rfl

include h₀ hs h in
theorem chart_body : Δ.chart Γᵣ.size = { s with
    nodes := phrases
    next := pre.map (·.entry) ++ main.entry :: link rest [Γᵣ.here] ++ post } := by
  have hhere : (Γᵣ.branch Γᵣ.here s).here = Γᵣ.size := rfl
  have hbody := h.body
  rw [hhere] at hbody
  rw [hbody, Sketch.chart_branch h₀.here_lt.ne, if_pos rfl, hs.nodes, List.nil_append]

include h in
/-- The blocks of a search: its root and its body, the tests, the ends of its branches, the joints,
and the other blocks of the branches. -/
theorem cases_of_between {b : ℕ} (hb : Γᵣ.Between Δ b) : b = Γᵣ.here ∨ b = Γᵣ.size ∨
    Heads rest b ∨ Stream Γ Δ (pre ++ main :: rest.map (·.branch)) b ∨
    (Γᵣ.branch Γᵣ.here s).Made Γ b ∧ Δ.chart b = Γ.chart b := by
  obtain hb | hb := hb
  · exact .inl hb
  · by_cases hbody : b = Γᵣ.size
    · exact .inr (.inl hbody)
    · by_cases hlt : b < Γ.size
      · by_cases hhead : Heads rest b
        · exact .inr (.inr (.inl hhead))
        · by_cases hex : Exits (pre ++ main :: rest.map (·.branch)) b
          · exact .inr (.inr (.inr (.inl (.inl hex))))
          · have hge : Γᵣ.size + 1 ≤ b := by omega
            exact .inr (.inr (.inr (.inr ⟨⟨hge, hlt⟩, h.firm b hlt hbody hhead hex⟩)))
      · exact .inr (.inr (.inr (.inl (.inr ⟨by omega, hb.2⟩))))

include h in
theorem between_of_made {b : ℕ} (hb : (Γᵣ.branch Γᵣ.here s).Made Γ b) : Γᵣ.Between Δ b := by
  have hsize := h.size_le
  have hge : Γᵣ.size + 1 ≤ b := hb.1
  have hlt := hb.2
  exact .inr (by omega)

include hq in
theorem between_of_joint {b : ℕ} (hb : Γ.size ≤ b ∧ b < Δ.size) : Γᵣ.Between Δ b := by
  have hge : Γᵣ.size + 1 ≤ Γ.size := hq.size_le
  exact .inr (by omega)

include hq h in
theorem between_entry {br : Branch} (hbr : br ∈ pre ++ main :: rest.map (·.branch)) :
    Γᵣ.Between Δ br.entry := between_of_made h (hq.fits br hbr).entry.1

include h₀ hq h in
theorem chart_eq_of_lt {b : ℕ} (hb : b < Γᵣ.size) (hne : b ≠ Γᵣ.here) : Δ.chart b = Γᵣ.chart b := by
  have hsize : Γᵣ.size + 1 ≤ Γ.size := hq.size_le
  have hnot : ∀ c < Γᵣ.size, ¬ (Γᵣ.branch Γᵣ.here s).Made Γ c := fun c hc hmade =>
    absurd (show Γᵣ.size + 1 ≤ c from hmade.1) (by omega)
  have hbody : b ≠ (Γᵣ.branch Γᵣ.here s).here := by
    change b ≠ Γᵣ.size
    omega
  rw [h.firm b (by omega) hbody (fun hhead => hnot b hb (hq.heads b hhead)) ?_,
    hq.frame b (by change b < Γᵣ.size + 1; omega) hbody,
    Sketch.chart_branch h₀.here_lt.ne, if_neg hb.ne, if_neg hne]
  rintro ⟨br, hbr, rfl⟩
  exact hnot _ hb (hq.fits br hbr).exit.1

include h₀ hs hq h in
/-- No edge leads out of a search. -/
theorem closed_of_between (hpost : ∀ c ∈ post, Γ.size ≤ c ∧ c < Δ.size) {b : ℕ}
    (hb : Γᵣ.Between Δ b) {c : ℕ} (hc : c ∈ (Δ.chart b).next) : Γᵣ.Between Δ c := by
  obtain rfl | rfl | hhead | hstream | ⟨hb, hsame⟩ := cases_of_between h hb
  · rw [chart_root h₀ hq h, List.mem_singleton] at hc
    have hsize : Γᵣ.size + 1 ≤ Γ.size := hq.size_le
    have hsize' := h.size_le
    exact .inr (by omega)
  · have hlink : ∀ c ∈ link rest [Γᵣ.here], Γᵣ.Between Δ c := fun c hc => by
      cases rest with
      | nil => exact .inl (List.mem_singleton.1 hc)
      | cons r rest =>
        exact List.mem_singleton.1 hc ▸ between_of_made h (hq.heads _ ⟨r, by simp, rfl⟩)
    rw [chart_body h₀ hs h] at hc
    simp only [List.mem_append, List.mem_map, List.mem_cons] at hc
    obtain (⟨br, hbr, rfl⟩ | rfl | hc) | hc := hc
    · exact between_entry hq h (by simp [hbr])
    · exact between_entry hq h (by simp)
    · exact hlink c hc
    · exact between_of_joint hq (hpost c hc)
  · obtain rfl | hc | ⟨r, hr, rfl⟩ := h.spine.mem_next hhead hc
    · exact .inl rfl
    · exact between_of_made h (hq.heads c hc)
    · exact between_entry hq h (by simp; exact .inr (.inr ⟨r, hr, rfl⟩))
  · exact between_of_joint hq (h.onto b hstream c hc)
  · rw [hsame] at hc
    exact between_of_made h (hq.closed b hb c hc)

include h₀ hs hq h in
theorem calm_of_between {b : ℕ} (hb : Γᵣ.Between Δ b) : (Δ.chart b).Calm := by
  obtain rfl | rfl | hhead | (hex | hb) | ⟨hb, hsame⟩ := cases_of_between h hb
  · rw [chart_root h₀ hq h]
    exact ⟨h₀.finish, fun hend => absurd hend (by simp [h₀.ending])⟩
  · rw [chart_body h₀ hs h]
    exact ⟨hs.finish, fun hend => absurd hend (by simp [hs.ending])⟩
  · have hcalm := hq.calm b (hq.heads b hhead)
    rw [h.heads b hhead]
    exact ⟨hcalm.finish, fun hend => absurd (hcalm.next hend) (hq.spine.next_ne_nil hhead)⟩
  · rw [h.exits b hex]
    obtain ⟨br, hbr, rfl⟩ := hex
    have hfits := hq.fits br hbr
    exact ⟨(hq.calm _ hfits.exit.1).finish, fun hend => absurd hend (by simp [hfits.ending])⟩
  · exact (h.joints b hb.1 hb.2).2
  · rw [hsame]
    exact hq.calm b hb

include h₀ hs hq h in
/-- The joint is reached, if the search can be left. -/
theorem reaches_joint (hd : Drained Δ.chart Γᵣ.here t (pre ++ main :: rest.map (·.branch)))
    (hpost : post = [] ∨ post = [t]) (hfalls : (Behaviour.search i
      ((pre.map (·.behaviour)).sum + if post = [] then 0 else .skip)
      (whens main phrases rest)).falls ≠ 0) : Δ.chart.Reaches Γᵣ.here t := by
  have hroot := rooted (s := s) h₀
  have hexit : ∀ br ∈ pre ++ main :: rest.map (·.branch), br.behaviour.falls ≠ 0 →
      Δ.chart.Reaches Γᵣ.here t := fun br hbr hfalls =>
    ((h.reaches_all hq hroot).1 br hbr).trans ((h.reaches_of_reaches hq hroot hbr
      ((hq.fits br hbr).reaches hfalls)).trans (hd.flows br hbr hfalls).reaches)
  by_cases hpre : (pre.map Branch.behaviour).sum.falls = 0
  · by_cases hmain : main.behaviour.falls = 0
    · by_cases hrest : (Behaviour.tests (rest.map fun r =>
          (r.phrases, r.branch.behaviour))).falls = 0
      · obtain rfl | rfl := hpost
        · exact absurd (by simp [Behaviour.search, whens, Behaviour.saying, Behaviour.after, hpre,
            hmain, hrest]) hfalls
        · refine .head (b := Γᵣ.size) (by simp [chart_root h₀ hq h]) (.single ?_)
          simp [chart_body h₀ hs h]
      · obtain ⟨w, hw, hne⟩ := Behaviour.exists_falls_of_tests hrest
        obtain ⟨r, hr, rfl⟩ := List.mem_map.1 hw
        exact hexit r.branch (by simp; exact .inr (.inr ⟨r, hr, rfl⟩)) hne
    · exact hexit main (by simp) hmain
  · obtain ⟨B, hB, hne⟩ := Behaviour.exists_falls_ne_zero_of_sum hpre
    obtain ⟨br, hbr, rfl⟩ := List.mem_map.1 hB
    exact hexit br (by simp [hbr]) hne

include h₀ hq h in
/-- What is read from a branch goes on at the joint. -/
theorem reading_branch (hd : Drained Δ.chart Γᵣ.here t (pre ++ main :: rest.map (·.branch)))
    (hle : Γ.size ≤ t) (hG : G.Settles Δ.chart (Γᵣ.Between Δ) (· = t) marks K) {br : Branch}
    (hbr : br ∈ pre ++ main :: rest.map (·.branch)) :
    G.reading br.entry = br.behaviour.into (G.reading t) K := by
  have hroot := rooted (s := s) h₀
  have hmade : ∀ b, (Γᵣ.branch Γᵣ.here s).Made Γ b → Γᵣ.Between Δ b ∧ b ≠ t ∧
      b ≠ (Γᵣ.branch Γᵣ.here s).here := fun b hb =>
    ⟨between_of_made h hb, (hb.2.trans_le hle).ne, (hroot.here_lt.trans_le hb.1).ne'⟩
  have hexit : ∀ b, Exits (pre ++ main :: rest.map (·.branch)) b →
      (Γᵣ.branch Γᵣ.here s).Made Γ b := by
    rintro _ ⟨br, hbr, rfl⟩
    exact (hq.fits br hbr).exit.1
  have hnodes : ∀ b, Exits (pre ++ main :: rest.map (·.branch)) b →
      (G b).nodes = (Γ.chart b).nodes := fun b hb => by
    obtain ⟨hbetween, hne, -⟩ := hmade b (hexit b hb)
    rw [hG.nodes b hbetween hne, h.exits b hb]
  have hfits := hq.fits br hbr
  have hG' : G.Settles Γ.chart (fun b => (Γᵣ.branch Γᵣ.here s).Made Γ b ∧ ¬ Heads rest b)
      (Exits (pre ++ main :: rest.map (·.branch))) marks K := by
    refine hG.restrict (fun b hb hex => ?_) (fun b hb => by rw [hnodes b hb]) fun e b he => ⟨he, ?_⟩
    · obtain ⟨hbetween, hne, hbody⟩ := hmade b hb.1
      exact ⟨⟨hbetween, hne⟩, (h.firm b hb.1.2 hbody hb.2 hex).symm, fun _ he => he⟩
    · obtain ⟨hb, hhead, hex⟩ := hq.marked e b he
      exact (h.firm b hb.2 (hmade b hb).2.2 hhead hex).symm
  rw [hfits.reads G K hG']
  refine br.behaviour.into_congr _ _ K fun hfalls => ?_
  have hex : Exits (pre ++ main :: rest.map (·.branch)) br.exit := ⟨br, hbr, rfl⟩
  rw [← hnodes _ hex, Chart.rest_length]
  refine (hd.flows br hbr hfalls).onward (P := Stream Γ Δ (pre ++ main :: rest.map (·.branch)))
    (hmade _ (hexit _ hex)).2.1 (.inl hex) (fun b hb c hc => .inr (h.onto b hb c hc))
    fun b hb hne => ?_
  have hbetween : Γᵣ.Between Δ b := by
    exact hb.elim (fun hb => between_of_made h (hexit b hb)) (between_of_joint hq)
  refine ⟨hG.nodes b hbetween hne, hG.next b hbetween hne fun e he => ?_⟩
  obtain ⟨hmark, -, hmark'⟩ := hq.marked e b he
  exact hb.elim hmark' fun hb => hb.1.not_gt hmark.2

/-- What is read from the tests is their ladder. -/
theorem reading_link {X : Language Instruction} {root : ℕ} (hspine : Δ.chart.Spine [root] rest)
    (hG : ∀ r ∈ rest, (G r.head).nodes = (Δ.chart r.head).nodes ∧
      (G r.head).next = (Δ.chart r.head).next)
    (hbranch : ∀ r ∈ rest, G.reading r.branch.entry = r.branch.behaviour.into X K) :
    ((link rest [root]).map G.reading).sum = Behaviour.ladder X (G.reading root) K
      (rest.map fun r => (r.phrases, r.branch.behaviour)) := by
  induction rest with
  | nil => simp [link, Behaviour.ladder]
  | cons r rest ih =>
    obtain ⟨hnodes, hnext, hspine⟩ := hspine
    obtain ⟨hnodes', hnext'⟩ := hG r (by simp)
    have hrest := ih hspine (fun r' hr' => hG r' (by simp [hr'])) fun r' hr' =>
      hbranch r' (by simp [hr'])
    have hne : (G r.head).next ≠ [] := by simp [hnext', hnext]
    rw [List.map_cons, Behaviour.ladder, ← hrest, ← hbranch r (by simp)]
    change ([r.head].map G.reading).sum = _
    rw [List.map_singleton, List.sum_singleton, Chart.reading_eq, Chart.onward_of_next_ne_nil hne,
      hnodes', hnodes, hnext', hnext, List.map_cons, List.sum_cons]

include h₀ hq h in
theorem reading_root (hle : Γ.size ≤ t) (hG : G.Settles Δ.chart (Γᵣ.Between Δ) (· = t) marks K) :
    G.rest (Γᵣ.chart Γᵣ.here).nodes.length Γᵣ.here = G.reading Γᵣ.size ∧
      G.reading Γᵣ.here = just (Γᵣ.chart Γᵣ.here).nodes * G.reading Γᵣ.size := by
  have hlt := h₀.here_lt
  have hsize : Γᵣ.size + 1 ≤ Γ.size := hq.size_le
  have hne : Γᵣ.here ≠ t := by omega
  have hnodes := hG.nodes Γᵣ.here (.inl rfl) hne
  have hnext := hG.next Γᵣ.here (.inl rfl) hne fun e he => by
    have hge : Γᵣ.size + 1 ≤ Γᵣ.here := (hq.marked e _ he).1.1
    omega
  rw [chart_root h₀ hq h] at hnodes hnext
  have honward : G.onward Γᵣ.here = G.reading Γᵣ.size := by
    rw [Chart.onward_of_next_ne_nil (by simp [hnext]), hnext, List.map_singleton,
      List.sum_singleton]
  constructor
  · rw [← congrArg List.length hnodes, Chart.rest_length, honward]
  · rw [Chart.reading_eq, hnodes, honward]

include h₀ hs hq h in
/-- What is read from the body: the phrases, and then AT END or a test. -/
theorem reading_body (hd : Drained Δ.chart Γᵣ.here t (pre ++ main :: rest.map (·.branch)))
    (hpost : post = [] ∨ post = [t]) (hle : Γ.size ≤ t) (ht : t < Δ.size)
    (hG : G.Settles Δ.chart (Γᵣ.Between Δ) (· = t) marks K) :
    G.reading Γᵣ.size = just phrases * (((pre.map (·.behaviour)).sum +
      if post = [] then 0 else .skip : Behaviour).into (G.reading t) K +
      (main.behaviour.into (G.reading t) K + Behaviour.ladder (G.reading t)
        (G.reading Γᵣ.here) K (rest.map fun r => (r.phrases, r.branch.behaviour)))) := by
  have hsize : Γᵣ.size + 1 ≤ Γ.size := hq.size_le
  have hbody : Γᵣ.Between Δ Γᵣ.size := .inr (by omega)
  have hnodes := hG.nodes Γᵣ.size hbody (by omega)
  have hnext := hG.next Γᵣ.size hbody (by omega) fun e he => by
    have hge : Γᵣ.size + 1 ≤ Γᵣ.size := (hq.marked e _ he).1.1
    omega
  rw [chart_body h₀ hs h] at hnodes hnext
  have hbranch : ∀ br ∈ pre ++ main :: rest.map (·.branch),
      G.reading br.entry = br.behaviour.into (G.reading t) K :=
    fun br hbr => reading_branch h₀ hq h hd hle hG hbr
  have hladder := reading_link (G := G) (K := K) (X := G.reading t) h.spine
    (fun r hr => by
      have hmade := hq.heads r.head ⟨r, hr, rfl⟩
      have hbetween := between_of_made h hmade
      have hne : r.head ≠ t := (hmade.2.trans_le hle).ne
      exact ⟨hG.nodes _ hbetween hne, hG.next _ hbetween hne fun e he =>
        (hq.marked e _ he).2.1 ⟨r, hr, rfl⟩⟩)
    fun r hr => hbranch r.branch (by simp; exact .inr (.inr ⟨r, hr, rfl⟩))
  have hpreSum : (pre.map (·.entry)).map G.reading =
      (pre.map (·.behaviour)).map (·.into (G.reading t) K) := by
    rw [List.map_map, List.map_map]
    exact List.map_congr_left fun br hbr => hbranch br (by simp [hbr])
  have hpostSum : (post.map G.reading).sum =
      (if post = [] then 0 else .skip : Behaviour).into (G.reading t) K := by
    obtain rfl | rfl := hpost <;> simp
  rw [← hladder, Behaviour.into_add, Behaviour.into_sum, ← hpreSum, ← hpostSum,
    ← hbranch main (by simp)]
  conv_lhs => rw [Chart.reading_eq, hnodes, Chart.onward_of_next_ne_nil (by simp [hnext]), hnext]
  rw [List.map_append, List.map_append, List.map_cons, List.sum_append, List.sum_append,
    List.sum_cons]
  congr 1
  ac_rfl

end Fragment

/-- **A search**, when it is closed: rounds of failing tests, and a last one. -/
theorem fragment (h₀ : Γᵣ.Open) (hnodes : (Γᵣ.chart Γᵣ.here).nodes = [i]) (hs : s.Blank)
    (hq : Quest (Γᵣ.branch Γᵣ.here s) Γ phrases marks pre main rest)
    (h : Closing (Γᵣ.branch Γᵣ.here s) Γ Δ phrases pre main rest Γᵣ.here post)
    (hd : Drained Δ.chart Γᵣ.here t (pre ++ main :: rest.map (·.branch)))
    (hpost : post = [] ∨ post = [t]) (ht : t = Δ.here) (hnew : t + 1 = Δ.size) (hle : Γ.size ≤ t) :
    Fragment Γᵣ Δ marks (Behaviour.search i
      ((pre.map (·.behaviour)).sum + if post = [] then 0 else .skip)
      (whens main phrases rest)) := by
  have hsize := h.size_le
  have hsize₀ : Γᵣ.size + 1 ≤ Γ.size := hq.size_le
  have hblank := h.joints t hle (by omega)
  have hpost' : ∀ c ∈ post, Γ.size ≤ c ∧ c < Δ.size := fun c hc => by
    obtain rfl | rfl := hpost
    · simp at hc
    · obtain rfl := List.mem_singleton.1 hc
      omega
  refine
    { size_le := by omega
      opened := ⟨by omega, by rw [← ht, hd.next], by rw [← ht, hd.ending],
        by rw [← ht]; exact hblank.2.finish⟩
      newest := .inl (by omega)
      frame := fun b hb hne => chart_eq_of_lt h₀ hq h hb hne
      nodes := by rw [chart_root h₀ hq h]
      closed := fun b hb c hc => closed_of_between h₀ hs hq h hpost' hb hc
      calm := fun b hb => calm_of_between h₀ hs hq h hb
      marked := fun e b he => ?marked
      signed := fun e b he => ?signed
      ends := ⟨{b | Δ.chart.Reaches Γᵣ.here b}, .refl, fun b hb c hc => hb.tail hc,
        fun b hb hnil => ht ▸ hd.eq_or_ending b hb hnil⟩
      reaches := fun hfalls => ht ▸ reaches_joint h₀ hs hq h hd hpost hfalls
      reads := fun G K hG => ?reads }
  case marked =>
    have hmade := (hq.marked e b he).1
    exact ⟨between_of_made h hmade, (ht ▸ hmade.2.trans_le hle).ne⟩
  case signed =>
    obtain ⟨hb, hhead, hex⟩ := hq.marked e b he
    have hbody : b ≠ (Γᵣ.branch Γᵣ.here s).here := ((rooted h₀).here_lt.trans_le hb.1).ne'
    rw [h.firm b hb.2 hbody hhead hex]
    exact hq.signed e b he
  case reads =>
    rw [← ht] at hG
    obtain ⟨hrest, hroot⟩ := reading_root h₀ hq h hle hG
    have hbody := reading_body h₀ hs hq h hd hpost hle (by omega) hG
    rw [hroot, hnodes] at hbody
    rw [hrest, ← ht, hblank.1, List.length_nil, ← Chart.reading_eq_rest]
    exact Behaviour.eq_into_search _ _ _ _ hbody

end Closing

end CobolFlow
