import FlowFacts.Proofs.Convergence

/-! # The variables that tables mention

Whatever the cap, a table of constant propagation has values only for followed variables that are
parameters or are assigned somewhere, and a table of live variables has only variables that are read
somewhere. That holds of every table on the way, also of one that a visit has half gathered.
-/

namespace FlowFacts

variable {F : Type}

/-- The fact stands at some node, before or after it. -/
def FactTable.Shows (t : FactTable F) (x : F) : Prop :=
  ∃ node, t.in? node = some x ∨ t.out? node = some x

theorem FactTable.shows_iff {t : FactTable F} {x : F} (d : Direction) :
    t.Shows x ↔ ∃ node, t.reaching? d node = some x ∨ t.leaving? d node = some x := by
  cases d with
  | forward => rfl
  | backward => exact exists_congr fun node => or_comm

namespace Solver

/-- The tables that a run goes through: those between two visits, and those in the middle of a
visit, when the first `k` feeders have been met into the fact that reaches the node. -/
inductive Passes (a : Analysis F) (g : Graph) : FactTable F → Prop
  | between {s : State F} : Reached a g s → Passes a g s.facts
  | during {s : State F} {node k : Nat} {pending : Worklist} {feeders : List Nat} {x : F}
      {t : FactTable F} : Reached a g s → s.pending.pop? = some (node, pending) →
      g.feeders? a.direction node = some feeders →
      gather a s.facts (feeders.take k) (s.reached a node) = some x →
      s.facts.setReaching? a.direction node x = some t → Passes a g t

section

variable [SemilatticeSup F] {a : Analysis F} {p : Procedure} {g : Graph} {flow : Stmt → F → F}
  {P : F → Prop}

/-- The property holds of the facts that a run starts with, and joins and transfers keep it. -/
structure Kept (a : Analysis F) (g : Graph) (flow : Stmt → F → F) (P : F → Prop) : Prop where
  initial : P a.initial
  boundary : P a.boundary
  join : ∀ x y, P x → P y → P (x ⊔ y)
  transfer : ∀ node stmt x, g.stmt? node = some stmt → P x → P (flow stmt x)

theorem Kept.of_reached (hb : Graph.build p = .ok g) (law : Lawful a g flow)
    (h : Kept a g flow P) {s : State F} (hr : Reached a g s) (node : Nat) :
    P (s.reached a node) ∧ P (s.left a node) := by
  apply hr.facts_have (P := fun _ => P) (Q := fun _ => P) hb law
  · exact fun _ => ⟨h.initial, h.initial⟩
  · exact h.boundary
  · exact fun _ _ x y _ hx hy => h.join x y hx hy
  · exact fun m stmt x _ hstmt hx => h.transfer m stmt x hstmt hx

theorem Kept.of_passes (hb : Graph.build p = .ok g) (law : Lawful a g flow)
    (h : Kept a g flow P) {t : FactTable F} (ht : Passes a g t) {x : F} (hx : t.Shows x) : P x := by
  rw [FactTable.shows_iff a.direction] at hx
  obtain ⟨m, hm⟩ := hx
  cases ht with
  | @between s hr =>
    have hkept := h.of_reached hb law hr m
    unfold State.reached State.left at hkept
    rcases hm with hm | hm
    · simpa [hm] using hkept.1
    · simpa [hm] using hkept.2
  | @during s node k pending feeders y t hr hpop hfeeders hgather hset =>
    have hkept := h.of_reached hb law hr
    have htidy := hr.tidy hb law
    have hnode := (htidy.inside node (Worklist.mem_of_pop? hpop)).1
    -- What is gathered so far is a join of facts that all have the property.
    have hy : P y := by
      rw [gather_spec law htidy.sized _ fun m hm => ((Graph.mem_feeders_iff hb hnode hfeeders).mp
        (List.mem_of_mem_take hm)).bounds hb |>.1, Option.some.injEq] at hgather
      rw [← hgather]
      exact joinAll_induct (fun m _ x hx => h.join x _ hx (hkept m).2) (hkept node).1
    obtain ⟨t', ht', -, hreach, hleave⟩ :=
      FactTable.setReaching_of_lt htidy.sized a.direction hnode y
    obtain rfl := Option.some.inj (hset.symm.trans ht')
    rw [hreach, hleave] at hm
    have hold := hkept m
    unfold State.reached State.left at hold
    rcases hm with hm | hm
    · split at hm
      · exact Option.some.inj hm ▸ hy
      · simpa [hm] using hold.1
    · simpa [hm] using hold.2

theorem passes_solve (hb : Graph.build p = .ok g) (law : Lawful a g flow) (cap : Nat) :
    Passes a g (solve a g cap).facts := by
  obtain ⟨s, hr, ⟨he, -⟩ | ⟨he, -⟩⟩ := solve_spec hb law cap
  · rw [he]
    exact .between hr
  · rw [he]
    exact .between hr

end

end Solver

/-! ## Constants -/

namespace Constants

variable {p : Procedure} {g : Graph}

/-- The variable is in the table and may hold an integer, and a value may come to it from outside or
from a statement. -/
structure Assignable (p : Procedure) (v : Var) : Prop where
  known : p.knows v = true
  followed : Followed p v
  assigned : v ∈ p.params ∨ ∃ s ∈ p.stmts, s.defines = some v

theorem Assignable.of_param {v : Var} (hv : v ∈ p.params) (hf : Followed p v) : Assignable p v :=
  ⟨hf.knows, hf, Or.inl hv⟩

theorem Assignable.of_defines (hb : Graph.build p = .ok g) {node : Nat} {s : Stmt} {v : Var}
    (hs : g.stmt? node = some s) (hdef : s.defines = some v) (hf : Followed p v) :
    Assignable p v := by
  refine ⟨hf.knows, hf, Or.inr ⟨s, ?_, hdef⟩⟩
  rcases Graph.nop_or_mem_stmts hb hs with rfl | hmem
  · cases hdef
  · exact hmem

theorem kept_assignable (hb : Graph.build p = .ok g) :
    Solver.Kept (analysis p) g (flow p) fun f => ∀ v, f.get v ≠ .undefined → Assignable p v := by
  constructor
  · intro v hv
    exact absurd (ConstFact.get_empty v) hv
  · intro v hv
    have hboundary : (boundary p).get v ≠ .undefined := hv
    rw [get_boundary] at hboundary
    split at hboundary
    · rename_i h
      exact .of_param h.1 h.2
    · exact absurd rfl hboundary
  · intro x y hx hy v hv
    exact (ConstFact.get_ne_of_sup hv).elim (hx v) (hy v)
  · intro node stmt x hstmt hx v hv
    rw [get_flow] at hv
    split at hv
    · rename_i h
      exact .of_defines hb hstmt h.1 h.2
    · exact hx v hv

end Constants

/-! ## Live variables -/

namespace Liveness

/-- The variable is in the table, and a statement reads it. -/
structure Readable (p : Procedure) (v : Var) : Prop where
  known : p.knows v = true
  read : ∃ s ∈ p.stmts, v ∈ s.uses

theorem Readable.of_uses {p : Procedure} {g : Graph} (hb : Graph.build p = .ok g) {node : Nat}
    {s : Stmt} {v : Var} (hs : g.stmt? node = some s) (huse : v ∈ s.uses) : Readable p v := by
  refine ⟨(Graph.wellFormed_of_stmt? hb hs).known v (List.mem_append_right _ huse), s, ?_, huse⟩
  rcases Graph.nop_or_mem_stmts hb hs with rfl | hmem
  · cases huse
  · exact hmem

theorem kept_readable {p : Procedure} {g : Graph} (hb : Graph.build p = .ok g) :
    Solver.Kept analysis g before fun x => ∀ v ∈ x, Readable p v := by
  constructor
  · intro v hv
    exact absurd hv (VarSet.not_mem_empty v)
  · intro v hv
    exact absurd hv (VarSet.not_mem_empty v)
  · intro x y hx hy v hv
    exact (VarSet.mem_sup.mp hv).elim (hx v) (hy v)
  · intro node stmt x hstmt hx v hv
    rcases mem_before.mp hv with hv | ⟨hv, -⟩
    · exact .of_uses hb hstmt hv
    · exact hx v hv

end Liveness

/-- Every table on the way mentions assignable variables only, or readable ones only. -/
theorem tables_mention {p : Procedure} {g : Graph} (hb : Graph.build p = .ok g) :
    (∀ t, Solver.Passes (Constants.analysis p) g t → ∀ f, t.Shows f →
      ∀ v, f.get v ≠ .undefined → Constants.Assignable p v) ∧
    (∀ t, Solver.Passes Liveness.analysis g t → ∀ x, t.Shows x → ∀ v ∈ x, Liveness.Readable p v) ∧
    ∀ cap, Solver.Passes (Constants.analysis p) g (Constants.solveWithin g cap).facts ∧
      Solver.Passes Liveness.analysis g (Liveness.solveWithin g cap).facts := by
  have law := Constants.lawful hb
  have law' := Liveness.lawful g
  refine ⟨?_, ?_, fun cap => ⟨?_, Solver.passes_solve hb law' cap⟩⟩
  · intro t ht f hf
    exact (Constants.kept_assignable hb).of_passes hb law ht hf
  · intro t ht x hx
    exact (Liveness.kept_readable hb).of_passes hb law' ht hx
  · rw [Constants.solveWithin, Graph.procedure_of_build hb]
    exact Solver.passes_solve hb law cap

theorem tables_of_divideLate_mention :
    Graph.build Solver.divideLate = .ok Solver.divideLateGraph ∧
    ∃ f x, (Constants.solveWithin Solver.divideLateGraph 1).facts.Shows f ∧
      f.get ⟨2⟩ = .nac ∧ Constants.Assignable Solver.divideLate ⟨2⟩ ∧
      (Liveness.solveWithin Solver.divideLateGraph 2).facts.Shows x ∧
      ⟨2⟩ ∈ x ∧ Liveness.Readable Solver.divideLate ⟨2⟩ := by
  have hb : Graph.build Solver.divideLate = .ok Solver.divideLateGraph := rfl
  obtain ⟨hconstants, hlive, hcaps⟩ := tables_mention hb
  have hnac : ((Constants.solveWithin Solver.divideLateGraph 1).facts.out? 0).map
      (·.get ⟨2⟩) = some .nac := by decide +kernel
  have hmem : ((Liveness.solveWithin Solver.divideLateGraph 2).facts.in? 3).map
      (·.contains ⟨2⟩) = some true := by decide +kernel
  obtain ⟨f, hf, hget⟩ := Option.map_eq_some_iff.mp hnac
  obtain ⟨x, hx, hin⟩ := Option.map_eq_some_iff.mp hmem
  refine ⟨hb, f, x, ⟨0, Or.inr hf⟩, hget, ?_, ⟨3, Or.inl hx⟩, hin, ?_⟩
  · exact hconstants _ (hcaps 1).1 f ⟨0, Or.inr hf⟩ ⟨2⟩ (by rw [hget]; decide)
  · exact hlive _ (hcaps 2).2 x ⟨3, Or.inl hx⟩ ⟨2⟩ hin

end FlowFacts
