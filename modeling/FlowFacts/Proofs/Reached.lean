import FlowFacts.Proofs.DeadCode
import FlowFacts.Proofs.Runs

/-! # What runs is not dead

A run keeps to the edges that the constants leave open, so what it reaches is dead only as a
useless assignment. This fails for runs that compute a followed variable from one that is not:
`copyLong` calls a method that counts as dead.
-/

namespace FlowFacts.DeadCode

/-! ## Covered runs keep to open edges -/

section Runs

variable {p : Procedure} {g : Graph}

theorem opens_of_takes {f : ConstFact} {σ : Store} (hsup : Constants.Supported p f)
    (hcov : Constants.Covers p f σ) {c : Command} {kind : EdgeKind} (h : c.Takes σ kind) :
    Opens f c kind := by
  cases c with
  | branch cond target =>
    have hvalue : ∀ n c, cond.MayBe σ n → Constants.evaluate cond f = .constant c → n = c :=
      fun n c => Constants.eq_of_evaluate hsup hcov
    rcases h with ⟨rfl, hone⟩ | ⟨rfl, hzero⟩
    · exact ⟨fun _ => rfl, fun hc => absurd (hvalue 1 0 hone hc) (by decide)⟩
    · exact ⟨fun hc => absurd (hvalue 0 1 hzero hc) (by decide), fun _ => rfl⟩
  | switch on cases otherwise =>
    obtain ⟨n, hn, hkind⟩ := h
    intro c hc
    obtain rfl : n = c := Constants.eq_of_evaluate (e := .var on) hsup hcov hn hc
    exact hkind
  | nop | assign _ _ | goto _ | call _ _ _ | ret _ => trivial

theorem reachable_of_run (hb : Graph.build p = .ok g) {cap : Nat}
    (hc : (Constants.solveWithin g cap).outcome = .converged) {σ₀ : Store} (hσ : σ₀.Initial p)
    {trace : List Action} {m : Moment} (hrun : Run g ⟨g.entry, σ₀⟩ trace m)
    (hsight : ∀ a ∈ trace, ¬ Constants.BlindAt p (Constants.solveWithin g cap).facts a.node) :
    Reachable g (Constants.solveWithin g cap).facts m.node := by
  induction hrun with
  | start => exact .entry
  | step hrun hstep ih =>
    have hbefore := fun a ha => hsight a (List.mem_append_left _ ha)
    obtain ⟨f, hf, hsup, hcov⟩ := Constants.covers_of_run hb hc hσ hrun hbefore
    cases hstep with
    | @mk node σ s result es e hs hready hyields hes he htakes =>
      refine (ih hbefore).edge ⟨s, f, es, hs, hf, hes, he, ?_⟩
      by_cases hentry : node = g.entry
      · -- The entry does nothing, so nothing is asked of the fact that reaches it.
        rw [hentry] at hs
        obtain rfl := Graph.eq_nop_of_stmt?_entry hs
        trivial
      · exact opens_of_takes hsup (hcov hentry) htakes

/-- What a run reaches without a blind statement is not dead, unless it is a useless assignment. -/
theorem reached_not_dead (hb : Graph.build p = .ok g)
    (hc : (Constants.solve g).outcome = .converged) :
    ∃ report dead, analyze p = .ok report ∧ report.result = .ok dead ∧
      (∀ σ₀ : Store, σ₀.Initial p → ∀ trace m, Run g ⟨g.entry, σ₀⟩ trace m →
        (∀ a ∈ trace, ¬ Constants.BlindAt p (Constants.solve g).facts a.node) →
        m.node ∉ dead ∨ ∃ v e after, p.stmt? m.node = some ⟨m.node, .assign (.var v) e⟩ ∧
          (Liveness.solve g).facts.out? m.node = some after ∧ ¬ v ∈ after ∧ e.isPure = true) ∧
      ∀ m a m', Step g m a m' → Constants.BlindAt p (Constants.solve g).facts m.node →
        ∃ v n after, Constants.Followed p v ∧ m'.store v = some n ∧
          (Constants.solve g).facts.out? m.node = some after ∧ after.get v = .undefined := by
  obtain ⟨report, dead, hanalyze, hresult, hmem⟩ := analyze_spec hb
  refine ⟨report, dead, hanalyze, hresult, ?_, ?_⟩
  · intro σ₀ hσ trace m hrun hsight
    by_cases hdead : m.node ∈ dead
    · right
      have huseless := ((hmem m.node).mp hdead).2.2 (reachable_of_run hb hc hσ hrun hsight)
      obtain ⟨s, after, hs, hafter, v, e, hcommand, hv, he⟩ := huseless
      refine ⟨v, e, after, ?_, hafter, hv, he⟩
      rcases Graph.stmt?_cases hb hs with ⟨-, rfl⟩ | ⟨-, hindex, hp⟩
      · cases hcommand
      · rw [hp, ← hindex, ← hcommand]
    · exact Or.inl hdead
  · intro m a m' hstep hblind
    obtain ⟨stmt, v, after, hs, hv, hdef, hafter, hundef⟩ := Constants.out_of_blindAt hb hc hblind
    cases hstep with
    | @mk node σ s result es e hs' hready hyields hes he htakes =>
      rw [hs] at hs'
      cases hs'
      obtain ⟨n, rfl⟩ := hyields.exists_of_defines hdef
      exact ⟨v, n, after, hv, by simp only [hdef, Store.write_eq], hafter, hundef⟩

end Runs

/-- Copies a `long` into an `int` on one of two paths, and then branches on the copy. -/
def copyLong : Procedure where
  vars := #[⟨"c", .int⟩, ⟨"y", .long⟩, ⟨"x", .int⟩, ⟨"k", .int⟩]
  params := [⟨0⟩, ⟨1⟩]
  body := #[
    .assign (.var ⟨3⟩) (.literal 1),
    .assign (.var ⟨2⟩) (.literal 1),
    .branch (.binary .eq ⟨0⟩ ⟨3⟩) 4,
    .assign (.var ⟨2⟩) (.var ⟨1⟩),
    .branch (.binary .eq ⟨2⟩ ⟨3⟩) 6,
    .call none "f" [],
    .ret none]
  params_known := by simp [Var.index]

def copyLongGraph : Graph := Graph.link copyLong (copyLong.stmts.map (Graph.plainEdges copyLong))

theorem return_of_copyLong_not_dead :
    ∃ report dead trace m, Graph.build copyLong = .ok copyLongGraph ∧
      (Constants.solve copyLongGraph).outcome = .converged ∧ analyze copyLong = .ok report ∧
      report.result = .ok dead ∧
      Run copyLongGraph ⟨copyLongGraph.entry, .uniform copyLong 1⟩ trace m ∧ m.node = 6 ∧
      6 ∉ dead := by
  have hb : Graph.build copyLong = .ok copyLongGraph := rfl
  have hc : (Constants.solve copyLongGraph).outcome = .converged := by decide +kernel
  have h₀ : Run copyLongGraph ⟨7, .uniform copyLong 1⟩ [] ⟨7, .uniform copyLong 1⟩ := .start
  have h₁ := h₀.step (.mk (e := ⟨7, 0, .entry⟩) rfl (by decide) rfl rfl (by decide) trivial)
  have h₂ := h₁.step (.mk (e := ⟨0, 1, .fallThrough⟩) rfl (by decide) ⟨_, rfl, rfl⟩ rfl
    (by decide) trivial)
  have h₃ := h₂.step (.mk (e := ⟨1, 2, .fallThrough⟩) rfl (by decide) ⟨_, rfl, rfl⟩ rfl
    (by decide) trivial)
  have h₄ := h₃.step (.mk (e := ⟨2, 4, .ifTrue⟩) rfl (by decide) rfl rfl
    (by decide) (Or.inl ⟨rfl, _, _, rfl, rfl, rfl⟩))
  have h₅ := h₄.step (.mk (e := ⟨4, 6, .ifTrue⟩) rfl (by decide) rfl rfl
    (by decide) (Or.inl ⟨rfl, _, _, rfl, rfl, rfl⟩))
  obtain ⟨report, dead, hanalyze, hresult, hruns, -⟩ := reached_not_dead hb hc
  have hkeeps : ∀ node ∈ [7, 0, 1, 2, 4], ∀ s ∈ copyLong.stmt? node,
      Constants.KeepsInts copyLong s := by decide
  have hnot := hruns _ (Store.initial_uniform copyLong 1) _ _ h₅ fun a ha =>
    Constants.not_blindAt (hkeeps a.node (List.mem_map_of_mem (f := Action.node) ha)) _
  refine ⟨report, dead, _, _, hb, hc, hanalyze, hresult, h₅, rfl, ?_⟩
  rcases hnot with hnot | ⟨v, e, after, hs, -⟩
  · exact hnot
  · cases hs

/-- A run that copies another value than the constant calls `f`, though the call is dead. -/
theorem call_of_copyLong_dead :
    ∃ report trace m, Graph.build copyLong = .ok copyLongGraph ∧
      (Constants.solve copyLongGraph).outcome = .converged ∧
      (Liveness.solve copyLongGraph).outcome = .converged ∧ analyze copyLong = .ok report ∧
      Run copyLongGraph ⟨copyLongGraph.entry, .uniform copyLong 7⟩ trace m ∧
      (Store.uniform copyLong 7).Initial copyLong ∧ m.node = 5 ∧ report.result = .ok [5] ∧
      copyLongGraph.stmt? 5 = some ⟨5, .call none "f" []⟩ := by
  have h₀ : Run copyLongGraph ⟨7, .uniform copyLong 7⟩ [] ⟨7, .uniform copyLong 7⟩ := .start
  have h₁ := h₀.step (.mk (e := ⟨7, 0, .entry⟩) rfl (by decide) rfl rfl (by decide) trivial)
  have h₂ := h₁.step (.mk (e := ⟨0, 1, .fallThrough⟩) rfl (by decide) ⟨_, rfl, rfl⟩ rfl
    (by decide) trivial)
  have h₃ := h₂.step (.mk (e := ⟨1, 2, .fallThrough⟩) rfl (by decide) ⟨_, rfl, rfl⟩ rfl
    (by decide) trivial)
  have h₄ := h₃.step (.mk (e := ⟨2, 3, .ifFalse⟩) rfl (by decide) rfl rfl
    (by decide) (Or.inr ⟨rfl, _, _, rfl, rfl, rfl⟩))
  have h₅ := h₄.step (.mk (e := ⟨3, 4, .fallThrough⟩) rfl (by decide) ⟨_, rfl, rfl⟩ rfl
    (by decide) trivial)
  have h₆ := h₅.step (.mk (e := ⟨4, 5, .ifFalse⟩) rfl (by decide) rfl rfl
    (by decide) (Or.inr ⟨rfl, _, _, rfl, rfl, rfl⟩))
  have hresult : (analyze copyLong).toOption.map (·.result.toOption) = some (some [5]) := by
    decide +kernel
  cases hanalyze : analyze copyLong with
  | error e => rw [hanalyze] at hresult; cases hresult
  | ok report =>
    refine ⟨report, _, _, rfl, by decide +kernel, by decide +kernel, rfl, h₆,
      Store.initial_uniform copyLong 7, rfl, ?_, rfl⟩
    cases hdead : report.result with
    | error e => simp [hanalyze, hdead, Except.toOption] at hresult
    | ok dead => simpa [hanalyze, hdead, Except.toOption] using hresult

end FlowFacts.DeadCode
