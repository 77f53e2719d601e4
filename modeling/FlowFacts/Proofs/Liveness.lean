import FlowFacts.Liveness
import FlowFacts.Proofs.Solver
import FlowFacts.Proofs.VarSet

/-! # Live variables are those that some path reads first

The set after a node holds exactly the variables that some path from there reads before
writing them. One half needs that the solver loses no update, the other that every member
is justified by a path.
-/

namespace FlowFacts.Liveness

/-! ## Paths -/

def Reads (g : Graph) (node : Nat) (v : Var) : Prop :=
  ∃ s, g.stmt? node = some s ∧ v ∈ s.uses

def Writes (g : Graph) (node : Nat) (v : Var) : Prop :=
  ∃ s, g.stmt? node = some s ∧ s.defines = some v

/-- A path of `k` edges leaves the node and ends at one that reads the variable. No node in
between writes it. -/
def ReadAfter (g : Graph) (node : Nat) (v : Var) (k : Nat) : Prop :=
  ∃ path : Nat → Nat, path 0 = node ∧ (∀ j, j < k → g.Follows (path j) (path (j + 1))) ∧
    Reads g (path k) v ∧ ∀ j, 0 < j → j < k → ¬ Writes g (path j) v

/-- Some path of at least one edge from the node reads the variable before writing it. -/
def ReadAhead (g : Graph) (node : Nat) (v : Var) : Prop := ∃ k, 1 ≤ k ∧ ReadAfter g node v k

theorem readAfter_one {g : Graph} {s t : Nat} {v : Var} (h : g.Follows s t) (hr : Reads g t v) :
    ReadAfter g s v 1 := by
  refine ⟨fun j => if j = 0 then s else t, rfl, ?_, hr, ?_⟩
  · intro j hj
    obtain rfl : j = 0 := by omega
    exact h
  · intro j hpos hlt
    omega

theorem readAfter_succ {g : Graph} {s t : Nat} {v : Var} {k : Nat} (h : g.Follows s t)
    (hw : ¬ Writes g t v) (ht : ReadAfter g t v k) : ReadAfter g s v (k + 1) := by
  obtain ⟨path, hstart, hedges, hread, hclear⟩ := ht
  refine ⟨fun j => if j = 0 then s else path (j - 1), rfl, ?_, ?_, ?_⟩
  · intro j hj
    cases j with
    | zero => simpa [hstart] using h
    | succ j => simpa using hedges j (by omega)
  · simpa using hread
  · intro j hpos hlt
    obtain ⟨j, rfl⟩ : ∃ i, j = i + 1 := ⟨j - 1, by omega⟩
    show ¬ Writes g (path j) v
    cases j with
    | zero => rw [hstart]; exact hw
    | succ j => exact hclear (j + 1) (by omega) (by omega)

theorem readAhead_of_follows {g : Graph} {s t : Nat} {v : Var} (h : g.Follows s t)
    (ht : Reads g t v ∨ (¬ Writes g t v ∧ ReadAhead g t v)) : ReadAhead g s v := by
  rcases ht with hr | ⟨hw, k, -, ht⟩
  · exact ⟨1, le_rfl, readAfter_one h hr⟩
  · exact ⟨k + 1, by omega, readAfter_succ h hw ht⟩

/-! ## The transfer -/

theorem mem_before {s : Stmt} {after : VarSet} {v : Var} :
    v ∈ before s after ↔ v ∈ s.uses ∨ (v ∈ after ∧ s.defines ≠ some v) := by
  rw [before, VarSet.mem_insertAll, VarSet.mem_eraseAll, Option.mem_toList]

theorem before_mono (s : Stmt) : Monotone (before s) := by
  intro x y hxy v hv
  rw [mem_before] at hv ⊢
  exact hv.imp_right fun h => ⟨hxy v h.1, h.2⟩

theorem lawful (g : Graph) : Solver.Lawful analysis g before := by
  refine ⟨fun _ _ => rfl, ?_⟩
  intro node s _ input output
  refine ⟨(overwrite output (before s input)).2, rfl, ?_⟩
  rw [overwrite_snd_iff]
  exact ne_comm

theorem solveWithin_sized {p : Procedure} {g : Graph} (hb : Graph.build p = .ok g) (cap : Nat) :
    (solveWithin g cap).facts.Sized g.size ∧ (solveWithin g cap).outcome ≠ .stuck :=
  Solver.solve_sized hb (lawful g) cap

/-! ## The solution -/

section Solution

variable {p : Procedure} {g : Graph}

theorem readAhead_of_mem (hb : Graph.build p = .ok g) {s : Solver.State VarSet}
    (h : Solver.Reached analysis g s) {node : Nat} {v : Var} (hv : v ∈ s.reached analysis node) :
    ReadAhead g node v := by
  -- What is live before a node is read there, or it is not written there and read ahead.
  refine (h.facts_have (P := fun m x => ∀ v ∈ x, ReadAhead g m v)
    (Q := fun m x => ∀ v ∈ x, Reads g m v ∨ (¬ Writes g m v ∧ ReadAhead g m v))
    hb (lawful g) ?_ ?_ ?_ ?_ node).1 v hv
  · exact fun m => ⟨fun v hv => absurd hv (VarSet.not_mem_empty v),
      fun v hv => absurd hv (VarSet.not_mem_empty v)⟩
  · exact fun v hv => absurd hv (VarSet.not_mem_empty v)
  · intro m k x y hfeeds hx hy v hv
    rcases VarSet.mem_sup.mp hv with hv | hv
    · exact hx v hv
    · exact readAhead_of_follows hfeeds (hy v hv)
  · intro m stmt x _ hstmt hx v hv
    rcases mem_before.mp hv with hv | ⟨hv, hdef⟩
    · exact Or.inl ⟨stmt, hstmt, hv⟩
    · refine Or.inr ⟨?_, hx v hv⟩
      rintro ⟨stmt', hstmt', hw⟩
      rw [hstmt] at hstmt'
      cases hstmt'
      exact hdef hw

theorem not_readAhead_exit (hb : Graph.build p = .ok g) (v : Var) : ¬ ReadAhead g g.exit v := by
  rintro ⟨k, hk, path, hstart, hedges, -⟩
  have h := hedges 0 (by omega)
  rw [hstart] at h
  exact (h.bounds hb).2.2.2 rfl

theorem mem_of_readAfter (hb : Graph.build p = .ok g) {s : Solver.State VarSet}
    (h : Solver.Reached analysis g s) (hdone : s.pending.toList = []) {k node : Nat} {v : Var}
    (hk : 1 ≤ k) (hr : ReadAfter g node v k) : v ∈ s.reached analysis node := by
  have hcons := h.consistent hb (lawful g)
  have hsettled : ∀ m, m < g.size → m ≠ g.exit → Solver.Settled analysis g before s m :=
    fun m hm hne => hcons.settled m hm hne (by simp [hdone])
  induction k generalizing node with
  | zero => omega
  | succ k ih =>
    obtain ⟨path, hstart, hedges, hread, hclear⟩ := hr
    have hfirst := hedges 0 (by omega)
    rw [hstart] at hfirst
    have hbounds := hfirst.bounds hb
    -- It is enough that the variable is live before the next node.
    suffices hnext : v ∈ s.left analysis (path 1) by
      exact (hsettled node hbounds.1 hbounds.2.2.2).input (path 1) hfirst v hnext
    obtain ⟨stmt, hstmt⟩ := Graph.stmt?_of_lt hb hbounds.2.1
    by_cases hk0 : k = 0
    · subst hk0
      obtain ⟨stmt', hstmt', huse⟩ := hread
      have hne : path 1 ≠ g.exit := by
        intro he
        simp only [Nat.zero_add, he, Graph.stmt?, or_true, if_true, Option.some.injEq] at hstmt'
        subst hstmt'
        simp [Stmt.uses, Command.uses] at huse
      rw [(hsettled (path 1) hbounds.2.1 hne).output stmt' hstmt', mem_before]
      exact Or.inl huse
    · have hsecond := (hedges 1 (by omega)).bounds hb
      rw [(hsettled (path 1) hbounds.2.1 hsecond.2.2.2).output stmt hstmt, mem_before]
      refine Or.inr ⟨ih (by omega) ⟨fun j => path (j + 1), rfl, ?_, hread, ?_⟩, ?_⟩
      · exact fun j hj => hedges (j + 1) (by omega)
      · exact fun j hpos hlt => hclear (j + 1) (by omega) (by omega)
      · exact fun hdef => hclear 1 (by omega) (by omega) ⟨stmt, hstmt, hdef⟩

/-- What the sets of a converged table have to do with each other. -/
structure LiveSets (g : Graph) (facts : FactTable VarSet) (before after : Nat → VarSet) : Prop where
  ins : ∀ node, node < g.size → facts.in? node = some (before node)
  outs : ∀ node, node < g.size → facts.out? node = some (after node)
  before_iff : ∀ node stmt, g.stmt? node = some stmt → ∀ v,
    v ∈ before node ↔ v ∈ stmt.uses ∨ (v ∈ after node ∧ stmt.defines ≠ some v)
  after_of_follows : ∀ s t, g.Follows s t → ∀ v, v ∈ before t → v ∈ after s
  after_iff : ∀ node v, v ∈ after node ↔ ReadAhead g node v

theorem LiveSets.after_exit {facts : FactTable VarSet} {before after : Nat → VarSet}
    (hb : Graph.build p = .ok g) (h : LiveSets g facts before after) : after g.exit = .empty := by
  apply VarSet.ext
  intro v
  rw [h.after_iff]
  exact iff_of_false (not_readAhead_exit hb v) (VarSet.not_mem_empty v)

theorem converged_spec (hb : Graph.build p = .ok g) {cap : Nat}
    (hc : (solveWithin g cap).outcome = .converged) :
    ∃ before after, LiveSets g (solveWithin g cap).facts before after := by
  obtain ⟨s, hr, hfacts, hdone⟩ := Solver.converged_spec hb (lawful g) hc
  have hsized := (hr.tidy hb (lawful g)).sized
  have hcons := hr.consistent hb (lawful g)
  have hafter : ∀ node v, v ∈ s.reached analysis node ↔ ReadAhead g node v := by
    intro node v
    constructor
    · exact readAhead_of_mem hb hr
    · rintro ⟨k, hk, h⟩
      exact mem_of_readAfter hb hr hdone hk h
  rw [show (solveWithin g cap).facts = s.facts from hfacts]
  refine ⟨s.left analysis, s.reached analysis, ?_, ?_, ?_, ?_, hafter⟩
  · exact fun node hn => Solver.leaving_eq_left (a := analysis) hsized hn
  · exact fun node hn => Solver.reaching_eq_reached (a := analysis) hsized hn
  · intro node stmt hstmt v
    by_cases he : node = g.exit
    · -- The exit keeps the boundary fact, reads nothing and has nothing ahead.
      rw [he] at hstmt
      obtain rfl := Option.some.inj ((Graph.stmt?_exit g).symm.trans hstmt)
      rw [he, hafter, show s.left analysis g.exit = .empty from hcons.boundary]
      simp [Stmt.uses, Command.uses, not_readAhead_exit hb v]
    · rw [(hcons.settled node (Graph.lt_of_stmt? hb hstmt) he (by simp [hdone])).output stmt hstmt,
        mem_before]
  · intro n t hfollows v hv
    have hbounds := hfollows.bounds hb
    exact (hcons.settled n hbounds.1 hbounds.2.2.2 (by simp [hdone])).input t hfollows v hv

/-- A converged run gives every node exactly the variables that are read ahead of it. -/
theorem live_iff_readAhead (hb : Graph.build p = .ok g) {cap : Nat}
    (hc : (solveWithin g cap).outcome = .converged) :
    (∀ node, node < g.size → ∃ stmt before after, g.stmt? node = some stmt ∧
      (solveWithin g cap).facts.in? node = some before ∧
      (solveWithin g cap).facts.out? node = some after ∧
      (∀ v, v ∈ after ↔ ReadAhead g node v) ∧
      ∀ v, v ∈ before ↔ v ∈ stmt.uses ∨ (v ∈ after ∧ stmt.defines ≠ some v)) ∧
    (solveWithin g cap).facts.in? g.exit = some .empty ∧
    (solveWithin g cap).facts.out? g.exit = some .empty := by
  obtain ⟨before, after, h⟩ := converged_spec hb hc
  have hexit : g.exit < g.size := Graph.boundary_lt hb .backward
  refine ⟨?_, ?_, ?_⟩
  · intro node hn
    obtain ⟨stmt, hstmt⟩ := Graph.stmt?_of_lt hb hn
    exact ⟨stmt, before node, after node, hstmt, h.ins node hn, h.outs node hn, h.after_iff node,
      h.before_iff node stmt hstmt⟩
  · have hempty : before g.exit = .empty := by
      apply VarSet.ext
      intro v
      rw [h.before_iff g.exit ⟨g.exit, .nop⟩ (Graph.stmt?_exit g), h.after_exit hb]
      simp [Stmt.uses, Command.uses]
    rw [h.ins _ hexit, hempty]
  · rw [h.outs _ hexit, h.after_exit hb]

end Solution

/-- Counts up to a parameter. Its loop reads and writes one variable in one statement. -/
def countUp : Procedure where
  vars := #[⟨"limit", .int⟩, ⟨"i", .int⟩, ⟨"one", .int⟩]
  params := [⟨0⟩]
  body := #[
    .assign (.var ⟨1⟩) (.literal 0),
    .assign (.var ⟨2⟩) (.literal 1),
    .branch (.binary .ge ⟨1⟩ ⟨0⟩) 5,
    .assign (.var ⟨1⟩) (.binary .add ⟨1⟩ ⟨2⟩),
    .goto 2,
    .ret (some ⟨1⟩)]
  params_known := by simp [Var.index]

theorem live_in_countUp : ∃ g, Graph.build countUp = .ok g ∧
    (solveWithin g 100).outcome = .converged ∧
    ∃ after, (solveWithin g 100).facts.out? 4 = some after ∧ after.contains ⟨1⟩ = true ∧
      ∀ v, v ∈ after ↔ ReadAhead g 4 v := by
  have h : ((Graph.build countUp).toOption.map fun g => ((solveWithin g 100).outcome, g.size,
      ((solveWithin g 100).facts.out? 4).map (·.contains ⟨1⟩))) =
        some (.converged, 8, some true) := by
    decide +kernel
  cases hb : Graph.build countUp with
  | error e => rw [hb] at h; cases h
  | ok g =>
    simp only [hb, Except.toOption, Option.map_some, Option.some.injEq, Prod.mk.injEq] at h
    obtain ⟨hc, hsize, hmem⟩ := h
    obtain ⟨stmt, before, after, -, -, hout, hafter, -⟩ :=
      (live_iff_readAhead hb hc).1 4 (by omega)
    rw [hout] at hmem
    exact ⟨g, rfl, hc, after, hout, by simpa using hmem, hafter⟩

end FlowFacts.Liveness
