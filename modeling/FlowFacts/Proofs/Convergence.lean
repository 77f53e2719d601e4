import FlowFacts.Proofs.Fixpoint
import Mathlib.Order.RelSeries
import Mathlib.Algebra.Order.BigOperators.Group.Finset
import Mathlib.Algebra.Order.BigOperators.Group.List

/-! # How long a run takes

Every visit but the first of each node is paid for by an edge along which a changed output was
passed on. An output changes only at the first visit of its node or when its input has grown, and
inputs never shrink. So the height of the inputs bounds the visits, whether outputs rise or fall.
-/

namespace FlowFacts

namespace Solver

variable {F : Type}

/-! ## Visit by visit -/

def turn (a : Analysis F) (g : Graph) (s : State F) : Option (State F) :=
  s.pending.pop?.bind fun next => visit a g next.1 { s with pending := next.2 }

/-- The state after `k` visits, when nothing caps the run. -/
def stateAfter (a : Analysis F) (g : Graph) : (k : Nat) → Option (State F)
  | 0 => start a g
  | k + 1 => (stateAfter a g k).bind (turn a g)

section Visits

variable {a : Analysis F} {g : Graph}

theorem run_of_turn {s s' : State F} (h : turn a g s = some s') (cap : Nat) :
    run a g (cap + 1) s = run a g cap s' := by
  obtain ⟨⟨node, pending⟩, hpop, hvisit⟩ := Option.bind_eq_some_iff.mp h
  simp only [run, hpop, hvisit]

theorem run_drained {s : State F} (h : s.pending.toList = []) (cap : Nat) :
    run a g cap s = s.finish a .converged := by
  cases cap with
  | zero => rw [run, if_pos ((Worklist.isEmpty_iff _).mpr h)]
  | succ cap => rw [run, (Worklist.pop?_eq_none_iff _).mpr h]

theorem solve_eq_run {k : Nat} {s : State F} (h : stateAfter a g k = some s) (cap : Nat) :
    solve a g (k + cap) = run a g cap s := by
  induction k generalizing s cap with
  | zero =>
    have hstart : start a g = some s := h
    rw [solve, hstart, Nat.zero_add]
  | succ k ih =>
    obtain ⟨s₀, hs₀, hturn⟩ := Option.bind_eq_some_iff.mp h
    rw [Nat.add_right_comm, Nat.add_assoc, ih hs₀, run_of_turn hturn]

theorem toList_pending_start {s : State F} (h : start a g = some s) :
    s.pending.toList = g.firstVisits a.direction := by
  obtain ⟨facts, -, hs⟩ := Option.bind_eq_some_iff.mp h
  rw [← Option.some.inj hs]
  exact Worklist.toList_ofList (g.nodup_firstVisits _)

theorem Started.length_pending {p : Procedure} (hb : Graph.build p = .ok g) {s : State F}
    (htidy : Tidy a g s) (h : Started a g s) : s.pending.toList.length = g.size - 1 := by
  have hset : s.pending.toList.toFinset = (Finset.range g.size).erase (g.boundary a.direction) := by
    ext m
    rw [List.mem_toFinset, h.waiting, Finset.mem_erase, Finset.mem_range, and_comm]
  rw [← List.toFinset_card_of_nodup htidy.inStep.nodup, hset,
    Finset.card_erase_of_mem (Finset.mem_range.mpr (Graph.boundary_lt hb a.direction)),
    Finset.card_range]

/-- The run is over after `m` visits. A cap of at least `m` changes nothing, and a lower one stops
the run in the state after that many visits. -/
structure EndsAfter (a : Analysis F) (g : Graph) (m : Nat) : Prop where
  drained : ∃ s, stateAfter a g m = some s ∧ s.pending.toList = [] ∧ ∀ cap, m ≤ cap →
    solve a g cap =
      ⟨s.facts, m, .converged, s.told.reverse ++ [.converged a.direction m]⟩
  cut : ∀ cap, cap < m → ∃ s, stateAfter a g cap = some s ∧ s.pending.toList ≠ [] ∧
    solve a g cap =
      ⟨s.facts, cap, .capped, s.told.reverse ++ [.gaveUp a.direction cap]⟩

end Visits

/-! ## Rising inputs -/

section Rises

variable [SemilatticeSup F]

/-- The facts that reach a node at some time of the run. -/
abbrev Arising (a : Analysis F) (g : Graph) (node : Nat) : Type :=
  { x : F // ∃ s, Reached a g s ∧ s.reached a node = x }

/-- Every strictly ascending chain of facts that reach one node has at most `h` steps. -/
def RisesAtMost (a : Analysis F) (g : Graph) (h : Nat) : Prop :=
  ∀ node, node < g.size → ∀ chain : LTSeries (Arising a g node), chain.length ≤ h

variable {a : Analysis F} {p : Procedure} {g : Graph} {flow : Stmt → F → F}

theorem exists_longer_chain {s s' : State F} {node : Nat} (hr : Reached a g s')
    (hle : s.reached a node ≤ s'.reached a node) (chain : LTSeries (Arising a g node))
    (hlast : chain.last.1 = s.reached a node) :
    ∃ longer : LTSeries (Arising a g node), longer.last.1 = s'.reached a node ∧
      chain.length ≤ longer.length ∧
      (s'.reached a node ≠ s.reached a node → chain.length < longer.length) := by
  by_cases he : s'.reached a node = s.reached a node
  · exact ⟨chain, hlast.trans he.symm, le_rfl, fun hne => absurd he hne⟩
  · have hlt : chain.last < (⟨s'.reached a node, s', hr, rfl⟩ : Arising a g node) := by
      rw [← Subtype.coe_lt_coe, hlast]
      exact lt_of_le_of_ne hle (Ne.symm he)
    have hlength : (chain.snoc _ hlt).length = chain.length + 1 := rfl
    refine ⟨chain.snoc _ hlt, ?_, by omega, fun _ => by omega⟩
    rw [RelSeries.last_snoc]

/-- The output of the node has changed `k` times. That is at most once more than there are steps in
a chain of its inputs, and when it is once more, the output is the transfer of the input. -/
def Turned (a : Analysis F) (g : Graph) (flow : Stmt → F → F) (s : State F) (node k : Nat) : Prop :=
  ∃ chain : LTSeries (Arising a g node), chain.last.1 = s.reached a node ∧
    k ≤ chain.length + 1 ∧ (k = chain.length + 1 →
      ∀ stmt, g.stmt? node = some stmt → s.left a node = flow stmt (s.reached a node))

/-- Each change of an output pays for the nodes that it queues. -/
structure Ledger (a : Analysis F) (g : Graph) (flow : Stmt → F → F) (s : State F)
    (turns : Nat → Nat) : Prop where
  turned : ∀ node, node < g.size → Turned a g flow s node (turns node)
  paid : s.visits + s.pending.toList.length ≤
    (g.size - 1) + ∑ node ∈ Finset.range g.size, turns node * g.fanOut a.direction node

theorem ledger_start (hb : Graph.build p = .ok g) {s : State F} (hr : Reached a g s)
    (htidy : Tidy a g s) (h : Started a g s) : Ledger a g flow s (fun _ => 0) := by
  refine ⟨fun node _ => ?_, ?_⟩
  · refine ⟨RelSeries.singleton _ ⟨s.reached a node, s, hr, rfl⟩, rfl, by omega, fun h0 => ?_⟩
    simp at h0
  · rw [h.visits, h.length_pending hb htidy]
    simp

theorem Visited.reached_le {s s' : State F} {node : Nat} (hv : Visited a g flow node s s') :
    s.reached a node ≤ s'.reached a node := by
  obtain ⟨feeders, -, hinput⟩ := hv.input
  rw [hinput]
  exact (joinAll_le_iff.mp le_rfl).1

theorem Turned.visited {s s' : State F} {node k : Nat} {stmt : Stmt}
    (hstmt : g.stmt? node = some stmt) (hv : Visited a g flow node s s') (hr : Reached a g s')
    (h : Turned a g flow s node k) :
    Turned a g flow s' node k ∧
      (s'.left a node ≠ s.left a node → Turned a g flow s' node (k + 1)) := by
  obtain ⟨chain, hlast, hk, hspent⟩ := h
  obtain ⟨longer, hlast', hlength, hgrown⟩ := exists_longer_chain hr hv.reached_le chain hlast
  refine ⟨⟨longer, hlast', by omega, fun _ => hv.output⟩, fun hchanged => ?_⟩
  refine ⟨longer, hlast', ?_, fun _ => hv.output⟩
  -- An input that has not grown gives the old output, unless the output had no such input yet.
  by_cases hinput : s'.reached a node = s.reached a node
  · have hroom : k ≠ chain.length + 1 := by
      intro hfull
      apply hchanged
      rw [hv.output stmt hstmt, hinput, hspent hfull stmt hstmt]
    omega
  · have := hgrown hinput
    omega

theorem Turned.of_eq {s s' : State F} {node k : Nat}
    (hreached : s'.reached a node = s.reached a node) (hleft : s'.left a node = s.left a node)
    (h : Turned a g flow s node k) : Turned a g flow s' node k := by
  unfold Turned at h ⊢
  rw [hreached, hleft]
  exact h

theorem Ledger.visited (hb : Graph.build p = .ok g) {s s' : State F} {node : Nat}
    {pending : Worklist} {turns : Nat → Nat} (htidy : Tidy a g s) (h : Ledger a g flow s turns)
    (hpop : s.pending.pop? = some (node, pending))
    (hv : Visited a g flow node { s with pending } s') (hr : Reached a g s') :
    ∃ turns, Ledger a g flow s' turns := by
  have hlist := Worklist.toList_of_pop? hpop
  have hnode := (htidy.inside node (Worklist.mem_of_pop? hpop)).1
  obtain ⟨stmt, hstmt⟩ := Graph.stmt?_of_lt hb hnode
  obtain ⟨hkept, hturned⟩ := (h.turned node hnode).visited hstmt hv hr
  have hother : ∀ m, m < g.size → m ≠ node → Turned a g flow s' m (turns m) :=
    fun m hm hne => (h.turned m hm).of_eq (hv.reached_other m hne) (hv.left_other m hne)
  have hpaid := h.paid
  rw [hlist, List.length_cons] at hpaid
  obtain ⟨readers, hreaders, ⟨-, hpending⟩ | ⟨hchanged, hpending⟩⟩ := hv.pending
  · -- The output stays, so the visit itself is what was paid for.
    refine ⟨turns, fun m hm => ?_, ?_⟩
    · by_cases hmn : m = node
      · rw [hmn]
        exact hkept
      · exact hother m hm hmn
    · rw [hv.visits, hpending]
      simp only
      omega
  · -- One change more of this output pays for the readers that join the queue.
    refine ⟨fun m => turns m + if m = node then 1 else 0, fun m hm => ?_, ?_⟩
    · by_cases hmn : m = node
      · rw [if_pos hmn, hmn]
        exact hturned hchanged
      · rw [if_neg hmn]
        exact hother m hm hmn
    · have hsum : ∑ m ∈ Finset.range g.size, (turns m + if m = node then 1 else 0) *
          g.fanOut a.direction m =
          ∑ m ∈ Finset.range g.size, turns m * g.fanOut a.direction m + readers.length := by
        simp [Nat.add_mul, Finset.sum_add_distrib, hnode, Graph.fanOut, hreaders]
      have hlength := Worklist.length_pushAll_le (htidy.inStep.of_pop? hpop) readers
      rw [hv.visits, hpending, hsum]
      simp only
      omega

theorem Reached.ledger (hb : Graph.build p = .ok g) (law : Lawful a g flow) {s : State F}
    (h : Reached a g s) : ∃ turns, Ledger a g flow s turns := by
  refine (h.induct (P := fun s => ∃ turns, Ledger a g flow s turns) hb law ?_ ?_).2
  · intro s hr htidy hstarted
    exact ⟨_, ledger_start hb hr htidy hstarted⟩
  · rintro s s' node pending htidy ⟨turns, hledger⟩ hpop hv hr
    exact hledger.visited hb htidy hpop hv hr

theorem Reached.visits_le (hb : Graph.build p = .ok g) (law : Lawful a g flow) {h : Nat}
    (hrises : RisesAtMost a g h) {s : State F} (hr : Reached a g s) :
    s.visits ≤ (g.size - 1) + (h + 1) * g.edges.length := by
  obtain ⟨turns, hturned, hpaid⟩ := hr.ledger hb law
  have hsum : ∑ node ∈ Finset.range g.size, turns node * g.fanOut a.direction node ≤
      (h + 1) * g.edges.length := by
    rw [← Graph.sum_fanOut hb a.direction, Finset.mul_sum]
    apply Finset.sum_le_sum
    intro node hnode
    apply Nat.mul_le_mul_right
    obtain ⟨chain, -, hturns, -⟩ := hturned node (Finset.mem_range.mp hnode)
    have := hrises node (Finset.mem_range.mp hnode) chain
    omega
  omega

/-! ## The end of a run -/

theorem stateAfter_succ (hb : Graph.build p = .ok g) (law : Lawful a g flow) {k : Nat}
    {s : State F} (hs : stateAfter a g k = some s) (hr : Reached a g s)
    (hwaits : s.pending.toList ≠ []) :
    ∃ node pending s', s.pending.pop? = some (node, pending) ∧
      stateAfter a g (k + 1) = some s' ∧ Reached a g s' ∧
      Visited a g flow node { s with pending } s' := by
  cases hpop : s.pending.pop? with
  | none => exact absurd ((Worklist.pop?_eq_none_iff _).mp hpop) hwaits
  | some next =>
    obtain ⟨node, pending⟩ := next
    obtain ⟨s', hs', hv⟩ := (hr.tidy hb law).visit_spec hb law hpop
    refine ⟨node, pending, s', rfl, ?_, hr.visit hpop hs', hv⟩
    simp only [stateAfter, hs, Option.bind_some, turn, hpop, hs']

theorem stateAfter_spec (hb : Graph.build p = .ok g) (law : Lawful a g flow) {k : Nat}
    (hwaits : ∀ j, j < k → ∀ s, stateAfter a g j = some s → s.pending.toList ≠ []) :
    ∃ s, stateAfter a g k = some s ∧ Reached a g s ∧ s.visits = k := by
  induction k with
  | zero =>
    obtain ⟨s, hs, -, hstarted⟩ := start_spec hb a
    exact ⟨s, hs, .start hs, hstarted.visits⟩
  | succ k ih =>
    obtain ⟨s, hs, hr, hk⟩ := ih fun j hj => hwaits j (by omega)
    obtain ⟨node, pending, s', -, hs', hr', hv⟩ :=
      stateAfter_succ hb law hs hr (hwaits k (by omega) s hs)
    exact ⟨s', hs', hr', by rw [hv.visits]; simp only [hk]⟩

theorem endsAfter_of_drained (hb : Graph.build p = .ok g) (law : Lawful a g flow) {m : Nat}
    {s : State F} (hs : stateAfter a g m = some s) (hdone : s.pending.toList = [])
    (hwaits : ∀ j, j < m → ∀ s, stateAfter a g j = some s → s.pending.toList ≠ []) :
    EndsAfter a g m := by
  obtain ⟨s', hs', -, hm⟩ := stateAfter_spec hb law hwaits
  rw [hs] at hs'
  cases hs'
  refine ⟨⟨s, hs, hdone, ?_⟩, ?_⟩
  · intro cap hcap
    obtain ⟨rest, rfl⟩ := Nat.exists_eq_add_of_le hcap
    rw [solve_eq_run hs, run_drained hdone, State.finish, hm]
  · intro cap hcap
    obtain ⟨t, ht, -, hvisits⟩ := stateAfter_spec hb law fun j hj => hwaits j (hj.trans hcap)
    have hwait := hwaits cap hcap t ht
    refine ⟨t, ht, hwait, ?_⟩
    have hempty : ¬ t.pending.isEmpty = true := fun he => hwait ((Worklist.isEmpty_iff _).mp he)
    have hrun := solve_eq_run ht 0
    rw [Nat.add_zero, run, if_neg hempty, State.finish, hvisits] at hrun
    exact hrun

theorem exists_endsAfter (hb : Graph.build p = .ok g) (law : Lawful a g flow) {bound : Nat}
    (hbound : ∀ s, Reached a g s → s.visits ≤ bound) : ∃ m, m ≤ bound ∧ EndsAfter a g m := by
  classical
  -- If nodes waited all the way, there would be a state with one visit too many.
  have hends : ∃ m, ∃ s, stateAfter a g m = some s ∧ s.pending.toList = [] := by
    by_contra hnever
    obtain ⟨s, -, hr, hk⟩ := stateAfter_spec hb law (k := bound + 1)
      fun j _ s hs he => hnever ⟨j, s, hs, he⟩
    have := hbound s hr
    omega
  have hwaits : ∀ j, j < Nat.find hends → ∀ s, stateAfter a g j = some s →
      s.pending.toList ≠ [] := fun j hj s hs he => Nat.find_min hends hj ⟨s, hs, he⟩
  obtain ⟨s, hs, hdone⟩ := Nat.find_spec hends
  obtain ⟨s', hs', hr, hm⟩ := stateAfter_spec hb law hwaits
  exact ⟨Nat.find hends, hm ▸ hbound s' hr, endsAfter_of_drained hb law hs hdone hwaits⟩

end Rises

/-! ## Heights -/

theorem length_le_of_levels {α : Type} [Preorder α] (level : α → Var → Nat) {vars : List Var}
    {top : Nat} (htop : ∀ x v, level x v ≤ top)
    (hle : ∀ x y, x < y → ∀ v ∈ vars, level x v ≤ level y v)
    (hlt : ∀ x y, x < y → ∃ v ∈ vars, level x v < level y v) (chain : LTSeries α) :
    chain.length ≤ top * vars.length := by
  have hmono : StrictMono fun x => (vars.map (level x)).sum :=
    fun x y hxy => List.sum_lt_sum _ _ (hle x y hxy) (hlt x y hxy)
  have hsum : (vars.map (level chain.last)).sum ≤ vars.length * top := by
    have hmem : ∀ n ∈ vars.map (level chain.last), n ≤ top := by
      intro n hn
      obtain ⟨v, -, rfl⟩ := List.mem_map.mp hn
      exact htop _ v
    simpa using List.sum_le_card_nsmul _ _ hmem
  have hlength : (chain.map _ hmono).head + chain.length ≤ (vars.map (level chain.last)).sum :=
    (chain.map _ hmono).head_add_length_le_nat
  rw [Nat.mul_comm]
  omega

theorem mem_allVars {p : Procedure} {v : Var} (h : p.knows v = true) : v ∈ p.allVars := by
  refine List.mem_map.mpr ⟨v.index, List.mem_range.mpr (of_decide_eq_true h), ?_⟩
  simp [Var.ofIndex, Var.index, Nat.toUInt32]

end Solver

def Value.level : Value → Nat
  | undefined => 0
  | constant _ => 1
  | nac => 2

theorem Value.level_le {x y : Value} (h : x.le y = true) : x.level ≤ y.level := by
  cases x <;> cases y <;> simp_all [le, level]

theorem Value.level_lt {x y : Value} (h : x.le y = true) (hne : x ≠ y) : x.level < y.level := by
  cases x <;> cases y <;> simp_all [le, level]

namespace Constants

variable {p : Procedure} {g : Graph}

def followedVars (p : Procedure) : List Var := p.allVars.filter (Followed p ·)

theorem Followed.knows {v : Var} (h : Followed p v) : p.knows v = true := by
  unfold Followed Procedure.holdsInt? Procedure.varType? at h
  rw [Option.map_map, Option.map_eq_some_iff] at h
  obtain ⟨info, hinfo, -⟩ := h
  exact decide_eq_true (Array.getElem?_eq_some_iff.mp hinfo).1

theorem risesAtMost (hb : Graph.build p = .ok g) :
    Solver.RisesAtMost (analysis p) g (2 * (followedVars p).length) := by
  intro node _ chain
  apply Solver.length_le_of_levels fun (x : Solver.Arising _ g node) v => (x.1.get v).level
  · intro x v
    cases x.1.get v <;> simp [Value.level]
  · exact fun x y hxy v _ => Value.level_le (hxy.le v)
  · intro x y hxy
    obtain ⟨v, hv⟩ : ∃ v, x.1.get v ≠ y.1.get v := by
      by_contra hsame
      simp only [ne_eq, not_exists, not_not] at hsame
      exact hxy.ne (Subtype.ext (ConstFact.ext hsame))
    have hlt := Value.level_lt (hxy.le v) hv
    -- The greater fact knows something of the variable, so it is followed.
    have hfollowed : Followed p v := by
      obtain ⟨s, hs, hy⟩ := y.2
      apply supported_of_reached hb hs node
      rw [hy]
      intro hundef
      simp [hundef, Value.level] at hlt
    refine ⟨v, List.mem_filter.mpr ⟨?_, decide_eq_true hfollowed⟩, hlt⟩
    exact Solver.mem_allVars hfollowed.knows

end Constants

namespace Liveness

variable {p : Procedure} {g : Graph}

theorem knows_of_mem (hb : Graph.build p = .ok g) {s : Solver.State VarSet}
    (h : Solver.Reached analysis g s) {node : Nat} {v : Var} (hv : v ∈ s.reached analysis node) :
    p.knows v = true := by
  obtain ⟨k, -, path, -, -, ⟨stmt, hstmt, huse⟩, -⟩ := readAhead_of_mem hb h hv
  exact (Graph.wellFormed_of_stmt? hb hstmt).known v (List.mem_append_right _ huse)

theorem risesAtMost (hb : Graph.build p = .ok g) : Solver.RisesAtMost analysis g p.numVars := by
  intro node _ chain
  have hlength : chain.length ≤ 1 * p.allVars.length := by
    apply Solver.length_le_of_levels fun (x : Solver.Arising _ g node) v => if v ∈ x.1 then 1 else 0
    · intro x v
      split <;> omega
    · intro x y hxy v _
      have hle : v ∈ x.1 → v ∈ y.1 := hxy.le v
      by_cases hx : v ∈ x.1
      · rw [if_pos hx, if_pos (hle hx)]
      · rw [if_neg hx]
        omega
    · intro x y hxy
      obtain ⟨v, hy, hx⟩ : ∃ v, v ∈ y.1 ∧ ¬ v ∈ x.1 := by
        by_contra hsame
        simp only [not_exists, not_and, not_not] at hsame
        exact hxy.not_ge hsame
      obtain ⟨s, hs, hreached⟩ := y.2
      refine ⟨v, Solver.mem_allVars (knows_of_mem hb hs (hreached ▸ hy)), ?_⟩
      rw [if_pos hy, if_neg hx]
      omega
  simpa [Procedure.allVars] using hlength

end Liveness

namespace Solver

/-- A run ends within one visit of each node and, for each edge, one more than its inputs rise. -/
theorem ends_within {p : Procedure} {g : Graph} (hb : Graph.build p = .ok g) :
    (∀ (F : Type) [SemilatticeSup F] (a : Analysis F) (flow : Stmt → F → F), Lawful a g flow →
      ∀ h, RisesAtMost a g h →
        ∃ m, m ≤ (g.size - 1) + (h + 1) * g.edges.length ∧ EndsAfter a g m) ∧
    (RisesAtMost (Constants.analysis p) g (2 * (Constants.followedVars p).length) ∧
      ∃ m, m ≤ (g.size - 1) + (2 * (Constants.followedVars p).length + 1) * g.edges.length ∧
        EndsAfter (Constants.analysis p) g m) ∧
    (RisesAtMost Liveness.analysis g p.numVars ∧
      ∃ m, m ≤ (g.size - 1) + (p.numVars + 1) * g.edges.length ∧
        EndsAfter Liveness.analysis g m) := by
  refine ⟨?_, ⟨Constants.risesAtMost hb, ?_⟩, ⟨Liveness.risesAtMost hb, ?_⟩⟩
  · intro F _ a flow law h hrises
    exact exists_endsAfter hb law fun s hs => hs.visits_le hb law hrises
  · have law := Constants.lawful hb
    exact exists_endsAfter hb law fun s hs => hs.visits_le hb law (Constants.risesAtMost hb)
  · have law := Liveness.lawful g
    exact exists_endsAfter hb law fun s hs => hs.visits_le hb law (Liveness.risesAtMost hb)

theorem divideLate_endsAfter :
    Graph.build divideLate = .ok divideLateGraph ∧
    RisesAtMost (Constants.analysis divideLate) divideLateGraph 6 ∧
    divideLateGraph.size - 1 + (6 + 1) * divideLateGraph.edges.length = 47 ∧
    EndsAfter (Constants.analysis divideLate) divideLateGraph 7 := by
  have hb : Graph.build divideLate = .ok divideLateGraph := rfl
  have hfollowed : (Constants.followedVars divideLate).length = 3 := by decide +kernel
  have hbound : divideLateGraph.size - 1 + (6 + 1) * divideLateGraph.edges.length = 47 := by
    decide +kernel
  have hvisits : (solve (Constants.analysis divideLate) divideLateGraph 100).visits = 7 := by
    decide +kernel
  have hrises := Constants.risesAtMost hb
  rw [hfollowed] at hrises
  obtain ⟨m, hm, hends⟩ := (ends_within hb).1 ConstFact _ _ (Constants.lawful hb) 6 hrises
  obtain ⟨s, -, -, hsolve⟩ := hends.drained
  rw [hsolve 100 (by omega)] at hvisits
  obtain rfl : m = 7 := hvisits
  exact ⟨hb, hrises, hbound, hends⟩

end Solver

end FlowFacts
