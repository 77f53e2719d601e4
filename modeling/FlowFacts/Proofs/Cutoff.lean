import FlowFacts.Proofs.Convergence
import FlowFacts.Proofs.DeadCode

/-! # What the cap cuts off

When both analyses are over within the default cap, the dead nodes are those of runs that nothing
caps. The cap is one number for all procedures, though, and the worklist is a queue: a run that has
made no more visits than there are nodes has left the rest with the initial fact. Nothing is live
after such a node, so each pure assignment there counts as dead, whoever reads it.
-/

namespace FlowFacts

namespace Solver

variable {F : Type} {a : Analysis F} {g : Graph}

/-! ## Before the first visit of a node -/

/-- The nodes from place `k` on in the order of first visits wait in that order, before all
others, and still have the initial fact. -/
structure Untouched (a : Analysis F) (g : Graph) (k : Nat) (s : State F) : Prop where
  waiting : ∃ later, s.pending.toList = (g.firstVisits a.direction).drop k ++ later
  reached : ∀ m ∈ (g.firstVisits a.direction).drop k, s.reached a m = a.initial

theorem untouched_start {s : State F} (h : start a g = some s) (hstarted : Started a g s) :
    Untouched a g 0 s := by
  refine ⟨⟨[], ?_⟩, fun m _ => hstarted.reached m⟩
  rw [toList_pending_start h, List.drop_zero, List.append_nil]

section Run

variable [SemilatticeSup F] {p : Procedure} {flow : Stmt → F → F}

theorem Untouched.visited {k : Nat} {s s' : State F} {node : Nat} {pending : Worklist}
    (htidy : Tidy a g s) (h : Untouched a g k s) (hk : k < (g.firstVisits a.direction).length)
    (hpop : s.pending.pop? = some (node, pending))
    (hv : Visited a g flow node { s with pending } s') : Untouched a g (k + 1) s' := by
  have hdrop := List.drop_eq_getElem_cons hk
  have hnodup := (g.nodup_firstVisits a.direction).sublist (List.drop_sublist k _)
  obtain ⟨later, hlater⟩ := h.waiting
  rw [Worklist.toList_of_pop? hpop, hdrop, List.cons_append, List.cons.injEq] at hlater
  -- The node that is visited is the one at place `k`, and those after it move up.
  obtain ⟨rfl, hrest⟩ := hlater
  rw [hdrop, List.nodup_cons] at hnodup
  constructor
  · obtain ⟨readers, -, ⟨-, he⟩ | ⟨-, he⟩⟩ := hv.pending
    · exact ⟨later, by rw [he, hrest]⟩
    · obtain ⟨more, hmore⟩ := Worklist.exists_toList_pushAll (htidy.inStep.of_pop? hpop) readers
      exact ⟨later ++ more, by rw [he, hmore, hrest, List.append_assoc]⟩
  · intro m hm
    have hne : m ≠ (g.firstVisits a.direction)[k] := fun he => hnodup.1 (he ▸ hm)
    rw [hv.reached_other m hne]
    exact h.reached m (hdrop ▸ List.mem_cons_of_mem _ hm)

theorem stateAfter_untouched (hb : Graph.build p = .ok g) (law : Lawful a g flow) {k : Nat}
    (hk : k ≤ (g.firstVisits a.direction).length) :
    ∃ s, stateAfter a g k = some s ∧ Reached a g s ∧ Untouched a g k s := by
  induction k with
  | zero =>
    obtain ⟨s, hs, -, hstarted⟩ := start_spec hb a
    exact ⟨s, hs, .start hs, untouched_start hs hstarted⟩
  | succ k ih =>
    obtain ⟨s, hs, hr, h⟩ := ih (by omega)
    have hwaits : s.pending.toList ≠ [] := by
      obtain ⟨later, hlater⟩ := h.waiting
      rw [hlater, List.drop_eq_getElem_cons hk]
      exact List.cons_ne_nil _ _
    obtain ⟨node, pending, s', hpop, hs', hr', hv⟩ := stateAfter_succ hb law hs hr hwaits
    exact ⟨s', hs', hr', h.visited (hr.tidy hb law) hk hpop hv⟩

theorem reaching_of_cut (hb : Graph.build p = .ok g) (law : Lawful a g flow) {cap node : Nat}
    (h : node ∈ (g.firstVisits a.direction).drop cap) :
    (solve a g cap).facts.reaching? a.direction node = some a.initial := by
  have hcap : cap ≤ (g.firstVisits a.direction).length := by
    by_contra hlt
    rw [List.drop_eq_nil_of_le (by omega)] at h
    cases h
  obtain ⟨s, hs, hr, huntouched⟩ := stateAfter_untouched hb law hcap
  have hfacts : (solve a g cap).facts = s.facts := congrArg Solution.facts (solve_eq_run hs 0)
  have hnode := (Graph.mem_firstVisits.mp (List.mem_of_mem_drop h)).1
  rw [hfacts, reaching_eq_reached (hr.tidy hb law).sized hnode, huntouched.reached node h]

end Run

end Solver

namespace Liveness

theorem out_of_cut {p : Procedure} {g : Graph} (hb : Graph.build p = .ok g) {cap node : Nat}
    (h : node + cap ≤ p.size) : (solveWithin g cap).facts.out? node = some .empty := by
  apply Solver.reaching_of_cut hb (lawful g)
  show node ∈ (g.firstVisits .backward).drop cap
  rw [Graph.firstVisits_backward hb, List.drop_reverse, List.mem_reverse, List.take_range,
    List.mem_range, List.length_range]
  omega

end Liveness

namespace DeadCode

variable {p : Procedure} {g : Graph}

theorem mem_of_cut (hb : Graph.build p = .ok g) {report : Report} {dead : List Nat}
    (hanalyze : analyze p = .ok report) (hresult : report.result = .ok dead) {node : Nat} {v : Var}
    {e : Expr} (hstmt : p.stmt? node = some ⟨node, .assign (.var v) e⟩) (hpure : e.isPure = true)
    (hcut : node + Solver.defaultCap ≤ p.size) : node ∈ dead := by
  obtain ⟨report', dead', hanalyze', hresult', hmem⟩ := analyze_spec hb
  obtain rfl : report = report' := Except.ok.inj (hanalyze.symm.trans hanalyze')
  obtain rfl : dead = dead' := Except.ok.inj (hresult.symm.trans hresult')
  have hlt := (Graph.stmt?_bounds hstmt).2
  refine (hmem node).mpr ⟨?_, ?_, fun _ => ?_⟩
  · rw [Graph.size_of_build hb]
    omega
  · rw [Graph.exit_of_build hb]
    omega
  · exact ⟨_, _, (Graph.stmt?_body hb hstmt).1, Liveness.out_of_cut hb hcut, v, e, rfl,
      VarSet.not_mem_empty v, hpure⟩

/-! ## Runs that nothing caps -/

/-- Constant propagation is over after `m` visits and live variables after `m'`, and from then on
every two caps give the dead nodes `dead`. -/
structure Uncapped (p : Procedure) (g : Graph) (m m' : Nat) (dead : List Nat) : Prop where
  constants : Solver.EndsAfter (Constants.analysis p) g m
  live : Solver.EndsAfter Liveness.analysis g m'
  detected : ∀ cap cap', m ≤ cap → m' ≤ cap' →
    (detect g (Constants.solveWithin g cap).facts (Liveness.solveWithin g cap').facts).result =
      .ok dead

theorem uncapped_of_endsAfter (hb : Graph.build p = .ok g) {m m' : Nat}
    (hm : Solver.EndsAfter (Constants.analysis p) g m)
    (hm' : Solver.EndsAfter Liveness.analysis g m') : ∃ dead, Uncapped p g m m' dead := by
  obtain ⟨s, -, -, hsolve⟩ := hm.drained
  obtain ⟨s', -, -, hsolve'⟩ := hm'.drained
  have hconstants : ∀ cap, m ≤ cap → (Constants.solveWithin g cap).facts = s.facts := by
    intro cap hcap
    rw [Constants.solveWithin, Graph.procedure_of_build hb, hsolve cap hcap]
  have hlive : ∀ cap, m' ≤ cap → (Liveness.solveWithin g cap).facts = s'.facts := by
    intro cap hcap
    rw [Liveness.solveWithin, hsolve' cap hcap]
  obtain ⟨dead, hdead, -⟩ := detect_spec hb (Constants.solveWithin_sized hb m).1
    (Liveness.solveWithin_sized hb m').1
  refine ⟨dead, hm, hm', fun cap cap' hcap hcap' => ?_⟩
  rw [hconstants cap hcap, hlive cap' hcap', ← hdead, hconstants m le_rfl, hlive m' le_rfl]

theorem exists_uncapped (hb : Graph.build p = .ok g) :
    ∃ m m' dead, Uncapped p g m m' dead ∧
      m ≤ (g.size - 1) + (2 * (Constants.followedVars p).length + 1) * g.edges.length ∧
      m' ≤ (g.size - 1) + (p.numVars + 1) * g.edges.length := by
  have law := Constants.lawful hb
  have law' := Liveness.lawful g
  obtain ⟨m, hle, hm⟩ := Solver.exists_endsAfter hb law fun s hs =>
    hs.visits_le hb law (Constants.risesAtMost hb)
  obtain ⟨m', hle', hm'⟩ := Solver.exists_endsAfter hb law' fun s hs =>
    hs.visits_le hb law' (Liveness.risesAtMost hb)
  obtain ⟨dead, hdead⟩ := uncapped_of_endsAfter hb hm hm'
  exact ⟨m, m', dead, hdead, hle, hle'⟩

theorem Uncapped.converged {m m' : Nat} {dead : List Nat} (h : Uncapped p g m m' dead) :
    (Liveness.solveWithin g m').outcome = .converged := by
  obtain ⟨s, -, -, hsolve⟩ := h.live.drained
  rw [Liveness.solveWithin, hsolve m' le_rfl]

theorem reachable_zero (hb : Graph.build p = .ok g) {constants : FactTable ConstFact}
    (hsized : constants.Sized g.size) (hpos : 0 < p.size) : Reachable g constants 0 := by
  obtain ⟨f, hf⟩ := FactTable.reaching_of_lt hsized .forward (Graph.boundary_lt hb .forward)
  have hopen : OpenEdge g constants g.entry (Graph.entryEdge p) :=
    ⟨_, f, _, Graph.stmt?_entry g, hf, Graph.outEdges_entry hb, List.mem_singleton.mpr rfl, trivial⟩
  have htarget : (Graph.entryEdge p).target = 0 := if_neg (by omega)
  exact htarget ▸ Reachable.entry.edge hopen

theorem Uncapped.zero_not_mem (hb : Graph.build p = .ok g) {m m' : Nat} {dead : List Nat}
    (h : Uncapped p g m m' dead) {v : Var} {e : Expr} {next : Command}
    (hfirst : p.stmt? 0 = some ⟨0, .assign (.var v) e⟩) (hnext : p.stmt? 1 = some ⟨1, next⟩)
    (hreads : v ∈ next.uses) : 0 ∉ dead := by
  have hsize := (Graph.stmt?_bounds hnext).2
  have htarget : Graph.next p 0 = 1 := if_neg (by omega)
  have hfollows : g.Follows 0 1 :=
    ⟨_, Graph.outEdges_stmt hb hfirst, _, List.mem_singleton.mpr rfl, htarget⟩
  obtain ⟨before, after, hsets⟩ := Liveness.converged_spec hb h.converged
  -- The next statement reads the variable, so it is live, and assigning it is not useless.
  have hlive : v ∈ after 0 := (hsets.after_iff 0 v).mpr
    ⟨1, le_rfl, Liveness.readAfter_one hfollows ⟨_, (Graph.stmt?_body hb hnext).1, hreads⟩⟩
  intro hdead
  have hconstants := (Constants.solveWithin_sized hb m).1
  obtain ⟨dead', hdead', hmem⟩ := detect_spec hb hconstants (Liveness.solveWithin_sized hb m').1
  rw [h.detected m m' le_rfl le_rfl] at hdead'
  cases hdead'
  obtain ⟨hlt, -, huseless⟩ := (hmem 0).mp hdead
  obtain ⟨s, out, hs, hout, u, e', hcommand, hu, -⟩ :=
    huseless (reachable_zero hb hconstants (by omega))
  rw [(Graph.stmt?_body hb hfirst).1] at hs
  cases hs
  cases hcommand
  rw [hsets.outs 0 hlt] at hout
  cases hout
  exact hu hlive

/-- Assigns a variable, passes it on, assigns it again and then does nothing `idle` times. -/
def passOn (idle : Nat) : Procedure where
  vars := #[⟨"x", .int⟩]
  params := []
  body := #[
    .assign (.var ⟨0⟩) (.literal 1),
    .call none "f" [⟨0⟩],
    .assign (.var ⟨0⟩) (.literal 2)] ++ Array.replicate idle .nop
  params_known := by simp

theorem size_passOn (idle : Nat) : (passOn idle).size = idle + 3 := by
  simp [passOn, Procedure.size, Nat.add_comm]

theorem exists_build_passOn (idle : Nat) : ∃ g, Graph.build (passOn idle) = .ok g := by
  refine ⟨_, (Graph.build_eq_ok_iff _ _).mpr ⟨fun s hs => ?_, rfl⟩⟩
  have hcommand : s.command ∈ (passOn idle).body := by
    obtain ⟨i, hi, rfl⟩ := List.mem_mapIdx.mp hs
    simp
  have hknown : (passOn idle).knows ⟨0⟩ = true := rfl
  obtain ⟨i, c⟩ := s
  simp only [passOn, Array.mem_append, List.mem_toArray, List.mem_cons, List.not_mem_nil, or_false,
    Array.mem_replicate] at hcommand
  rcases hcommand with (rfl | rfl | rfl) | ⟨-, rfl⟩
  all_goals
    refine ⟨?_, trivial⟩
    simp [Stmt.defines, Command.defines, Stmt.uses, Command.uses, Expr.uses, Place.uses, hknown]

/-- When the default cap leaves room for both analyses, it has no influence on the dead nodes. -/
theorem analyze_eq_uncapped (hb : Graph.build p = .ok g) :
    ∃ report dead m m' uncut, analyze p = .ok report ∧ report.result = .ok dead ∧
      Uncapped p g m m' uncut ∧
      m ≤ (g.size - 1) + (2 * (Constants.followedVars p).length + 1) * g.edges.length ∧
      m' ≤ (g.size - 1) + (p.numVars + 1) * g.edges.length ∧
      (m ≤ Solver.defaultCap → m' ≤ Solver.defaultCap → dead = uncut) := by
  obtain ⟨report, dead, hanalyze, hresult, -⟩ := analyze_spec hb
  obtain ⟨m, m', uncut, huncapped, hle, hle'⟩ := exists_uncapped hb
  refine ⟨report, dead, m, m', uncut, hanalyze, hresult, huncapped, hle, hle', fun hm hm' => ?_⟩
  obtain ⟨log, hlog⟩ := analyzeWith_solved hb Solver.defaultCap Solver.defaultCap
  obtain rfl := Except.ok.inj (hanalyze.symm.trans hlog)
  rw [huncapped.detected _ _ hm hm'] at hresult
  exact (Except.ok.inj hresult).symm

theorem analyze_passOn_eq_uncapped :
    ∃ g report m m', Graph.build (passOn 2) = .ok g ∧ analyze (passOn 2) = .ok report ∧
      report.result = .ok [2] ∧ m ≤ Solver.defaultCap ∧ m' ≤ Solver.defaultCap ∧
      Uncapped (passOn 2) g m m' [2] := by
  let g := Graph.link (passOn 2) ((passOn 2).stmts.map (Graph.plainEdges (passOn 2)))
  have hb : Graph.build (passOn 2) = .ok g := rfl
  have hbounds : g.size - 1 + (2 * (Constants.followedVars (passOn 2)).length + 1) *
      g.edges.length = 24 ∧ g.size - 1 + ((passOn 2).numVars + 1) * g.edges.length = 18 := by
    decide +kernel
  have hdead : (analyze (passOn 2)).toOption.map (·.result.toOption) = some (some [2]) := by
    decide +kernel
  obtain ⟨report, dead, m, m', uncut, hanalyze, hresult, huncapped, hle, hle', hsame⟩ :=
    analyze_eq_uncapped hb
  rw [hbounds.1] at hle
  rw [hbounds.2] at hle'
  have hm : m ≤ Solver.defaultCap := hle.trans (by decide)
  have hm' : m' ≤ Solver.defaultCap := hle'.trans (by decide)
  obtain rfl : dead = [2] := by simpa [hanalyze, hresult, Except.toOption] using hdead
  obtain rfl := hsame hm hm'
  exact ⟨g, report, m, m', hb, hanalyze, hresult, hm, hm', huncapped⟩

/-- With a million statements behind it, the first assignment is dead though the call reads it. -/
theorem passOn_cut_off :
    ∃ g report dead m m' uncut, Graph.build (passOn 1000000) = .ok g ∧
      analyze (passOn 1000000) = .ok report ∧ report.result = .ok dead ∧
      Uncapped (passOn 1000000) g m m' uncut ∧ 0 ∈ dead ∧ 0 ∉ uncut := by
  obtain ⟨g, hb⟩ := exists_build_passOn 1000000
  have hfirst : (passOn 1000000).stmt? 0 = some ⟨0, .assign (.var ⟨0⟩) (.literal 1)⟩ := by
    simp [passOn, Procedure.stmt?]
  have hnext : (passOn 1000000).stmt? 1 = some ⟨1, .call none "f" [⟨0⟩]⟩ := by
    simp [passOn, Procedure.stmt?]
  have hcut : 0 + Solver.defaultCap ≤ (passOn 1000000).size := by
    rw [size_passOn, Solver.defaultCap]
    omega
  obtain ⟨report, dead, hanalyze, hresult, -⟩ := analyze_spec hb
  obtain ⟨m, m', uncut, huncapped, -⟩ := exists_uncapped hb
  exact ⟨g, report, dead, m, m', uncut, hb, hanalyze, hresult, huncapped,
    mem_of_cut hb hanalyze hresult hfirst rfl hcut,
    huncapped.zero_not_mem hb hfirst hnext (List.mem_singleton.mpr rfl)⟩

end DeadCode

end FlowFacts
