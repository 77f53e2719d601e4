import FlowFacts.Solver
import FlowFacts.Proofs.Graph
import FlowFacts.Proofs.Worklist
import Mathlib.Order.Lattice

/-! # What the solver computes

One visit is described once, by `Visited`. Everything that holds in every state that the
solver goes through follows from it by induction: a node that does not wait is settled, and
facts have every property that meeting and transfer keep.
-/

namespace FlowFacts

/-! ## Tables with one entry per node -/

namespace FactTable

variable {F : Type}

structure Sized (t : FactTable F) (n : Nat) : Prop where
  ins : t.ins.size = n
  outs : t.outs.size = n

theorem sized_filled (n : Nat) (x : F) : (filled n x).Sized n := by
  constructor <;> simp [filled]

theorem in?_filled {n node : Nat} (h : node < n) (x : F) : (filled n x).in? node = some x := by
  simp [filled, in?, h]

theorem out?_filled {n node : Nat} (h : node < n) (x : F) : (filled n x).out? node = some x := by
  simp [filled, out?, h]

theorem reaching_of_lt {t : FactTable F} {n node : Nat} (h : t.Sized n) (d : Direction)
    (hn : node < n) : ∃ x, t.reaching? d node = some x := by
  cases d with
  | forward => exact ⟨_, Array.getElem?_eq_getElem (h.ins ▸ hn)⟩
  | backward => exact ⟨_, Array.getElem?_eq_getElem (h.outs ▸ hn)⟩

theorem leaving_of_lt {t : FactTable F} {n node : Nat} (h : t.Sized n) (d : Direction)
    (hn : node < n) : ∃ x, t.leaving? d node = some x := by
  cases d with
  | forward => exact ⟨_, Array.getElem?_eq_getElem (h.outs ▸ hn)⟩
  | backward => exact ⟨_, Array.getElem?_eq_getElem (h.ins ▸ hn)⟩

theorem setIn_of_lt {t : FactTable F} {n node : Nat} (h : t.Sized n) (hn : node < n) (x : F) :
    ∃ t', t.setIn? node x = some t' ∧ t'.Sized n ∧ t'.outs = t.outs ∧
      ∀ m, t'.in? m = if m = node then some x else t.in? m := by
  have hlt : node < t.ins.size := h.ins ▸ hn
  refine ⟨{ t with ins := t.ins.set node x hlt }, by rw [setIn?, dif_pos hlt], ⟨?_, h.outs⟩,
    rfl, ?_⟩
  · simp [h.ins]
  · intro m
    simp only [in?, Array.getElem?_set, @eq_comm _ m]

theorem setOut_of_lt {t : FactTable F} {n node : Nat} (h : t.Sized n) (hn : node < n) (x : F) :
    ∃ t', t.setOut? node x = some t' ∧ t'.Sized n ∧ t'.ins = t.ins ∧
      ∀ m, t'.out? m = if m = node then some x else t.out? m := by
  have hlt : node < t.outs.size := h.outs ▸ hn
  refine ⟨{ t with outs := t.outs.set node x hlt }, by rw [setOut?, dif_pos hlt], ⟨h.ins, ?_⟩,
    rfl, ?_⟩
  · simp [h.outs]
  · intro m
    simp only [out?, Array.getElem?_set, @eq_comm _ m]

theorem setReaching_of_lt {t : FactTable F} {n node : Nat} (h : t.Sized n) (d : Direction)
    (hn : node < n) (x : F) :
    ∃ t', t.setReaching? d node x = some t' ∧ t'.Sized n ∧
      (∀ m, t'.reaching? d m = if m = node then some x else t.reaching? d m) ∧
      ∀ m, t'.leaving? d m = t.leaving? d m := by
  cases d with
  | forward =>
    obtain ⟨t', hset, hsized, houts, hin⟩ := setIn_of_lt h hn x
    exact ⟨t', hset, hsized, hin, fun m => by simp [leaving?, out?, houts]⟩
  | backward =>
    obtain ⟨t', hset, hsized, hins, hout⟩ := setOut_of_lt h hn x
    exact ⟨t', hset, hsized, hout, fun m => by simp [leaving?, in?, hins]⟩

theorem setLeaving_of_lt {t : FactTable F} {n node : Nat} (h : t.Sized n) (d : Direction)
    (hn : node < n) (x : F) :
    ∃ t', t.setLeaving? d node x = some t' ∧ t'.Sized n ∧
      (∀ m, t'.leaving? d m = if m = node then some x else t.leaving? d m) ∧
      ∀ m, t'.reaching? d m = t.reaching? d m := by
  cases d with
  | forward =>
    obtain ⟨t', hset, hsized, hins, hout⟩ := setOut_of_lt h hn x
    exact ⟨t', hset, hsized, hout, fun m => by simp [reaching?, in?, hins]⟩
  | backward =>
    obtain ⟨t', hset, hsized, houts, hin⟩ := setIn_of_lt h hn x
    exact ⟨t', hset, hsized, hin, fun m => by simp [reaching?, out?, houts]⟩

end FactTable

namespace Solver

variable {F : Type}

/-! ## Analyses that keep the contract -/

/-- Meeting is a join, the transfer is a function of the statement and its input, and the
transfer tells exactly whether it changed the output. -/
structure Lawful [SemilatticeSup F] (a : Analysis F) (g : Graph) (flow : Stmt → F → F) : Prop where
  meets : ∀ fact target, (a.meetInto fact target).1 = target ⊔ fact
  transfers : ∀ node s, g.stmt? node = some s → ∀ input output, ∃ changed,
    a.transfer s input output = some (flow s input, changed) ∧
      (changed = true ↔ flow s input ≠ output)

/-- The fact that reaches a node. -/
def State.reached (a : Analysis F) (s : State F) (node : Nat) : F :=
  (s.facts.reaching? a.direction node).getD a.initial

/-- The fact that leaves a node. -/
def State.left (a : Analysis F) (s : State F) (node : Nat) : F :=
  (s.facts.leaving? a.direction node).getD a.initial

theorem reaching_eq_reached {a : Analysis F} {s : State F} {n node : Nat} (h : s.facts.Sized n)
    (hn : node < n) : s.facts.reaching? a.direction node = some (s.reached a node) := by
  obtain ⟨x, hx⟩ := FactTable.reaching_of_lt h a.direction hn
  rw [State.reached, hx, Option.getD_some]

theorem leaving_eq_left {a : Analysis F} {s : State F} {n node : Nat} (h : s.facts.Sized n)
    (hn : node < n) : s.facts.leaving? a.direction node = some (s.left a node) := by
  obtain ⟨x, hx⟩ := FactTable.leaving_of_lt h a.direction hn
  rw [State.left, hx, Option.getD_some]

/-! ## One visit -/

section Visit

variable [SemilatticeSup F] {a : Analysis F} {p : Procedure} {g : Graph} {flow : Stmt → F → F}

/-- Joins the facts of some nodes into a fact, one after another. -/
def joinAll (f : Nat → F) (x : F) (nodes : List Nat) : F := nodes.foldl (fun x m => x ⊔ f m) x

theorem joinAll_le_iff {f : Nat → F} {x y : F} {nodes : List Nat} :
    joinAll f x nodes ≤ y ↔ x ≤ y ∧ ∀ m ∈ nodes, f m ≤ y := by
  induction nodes generalizing x with
  | nil => simp [joinAll]
  | cons m nodes ih =>
    have h : joinAll f x (m :: nodes) = joinAll f (x ⊔ f m) nodes := rfl
    rw [h, ih, sup_le_iff, List.forall_mem_cons, and_assoc]

theorem joinAll_induct {f : Nat → F} {P : F → Prop} {nodes : List Nat}
    (h : ∀ m ∈ nodes, ∀ x, P x → P (x ⊔ f m)) {x : F} (hx : P x) : P (joinAll f x nodes) := by
  induction nodes generalizing x with
  | nil => exact hx
  | cons m nodes ih =>
    exact ih (fun k hk => h k (List.mem_cons_of_mem _ hk)) (h m List.mem_cons_self x hx)

/-- All that a visit of a node does. -/
structure Visited (a : Analysis F) (g : Graph) (flow : Stmt → F → F) (node : Nat)
    (s s' : State F) : Prop where
  sized : s'.facts.Sized g.size
  /-- The input grows by the facts that feed the node. -/
  input : ∃ feeders, g.feeders? a.direction node = some feeders ∧
    s'.reached a node = joinAll (s.left a) (s.reached a node) feeders
  output : ∀ stmt, g.stmt? node = some stmt → s'.left a node = flow stmt (s'.reached a node)
  reached_other : ∀ m, m ≠ node → s'.reached a m = s.reached a m
  left_other : ∀ m, m ≠ node → s'.left a m = s.left a m
  pending : ∃ readers, g.readers? a.direction node = some readers ∧
    (s'.left a node = s.left a node ∧ s'.pending = s.pending ∨
      s'.left a node ≠ s.left a node ∧ s'.pending = s.pending.pushAll readers)
  visits : s'.visits = s.visits + 1

theorem gather_spec (law : Lawful a g flow) {s : State F} (hs : s.facts.Sized g.size)
    (feeders : List Nat) (hf : ∀ m ∈ feeders, m < g.size) (target : F) :
    gather a s.facts feeders target = some (joinAll (s.left a) target feeders) := by
  induction feeders generalizing target with
  | nil => rfl
  | cons m feeders ih =>
    rw [gather, List.foldlM_cons, leaving_eq_left hs (hf m List.mem_cons_self), Option.map_some,
      law.meets]
    exact ih (fun m hm => hf m (List.mem_cons_of_mem _ hm)) (target ⊔ s.left a m)

theorem visit_spec (hb : Graph.build p = .ok g) (law : Lawful a g flow) {s : State F}
    (hs : s.facts.Sized g.size) {node : Nat} (hn : node < g.size) :
    ∃ s', visit a g node s = some s' ∧ Visited a g flow node s s' := by
  obtain ⟨stmt, hstmt⟩ := Graph.stmt?_of_lt hb hn
  obtain ⟨feeders, hfeeders, hmem⟩ := Graph.feeders_of_lt hb a.direction hn
  obtain ⟨readers, hreaders, -⟩ := Graph.readers_of_lt hb a.direction hn
  have hbounds : ∀ m ∈ feeders, m < g.size := fun m hm => ((hmem m).mp hm).bounds hb |>.1
  have hinput := gather_spec law hs feeders hbounds (s.reached a node)
  generalize hjoin : joinAll (s.left a) (s.reached a node) feeders = input at hinput
  obtain ⟨changed, htransfer, hchanged⟩ := law.transfers node stmt hstmt input (s.left a node)
  obtain ⟨t, ht, htsized, htreach, htleave⟩ :=
    FactTable.setReaching_of_lt hs a.direction hn input
  obtain ⟨u, hu, husized, huleave, hureach⟩ :=
    FactTable.setLeaving_of_lt htsized a.direction hn (flow stmt input)
  -- The input is written first. The output goes to the other side, so neither disturbs the other.
  let s' : State F :=
    { facts := u
      pending := s.pending.pushAll (if changed then readers else [])
      visits := s.visits + 1
      told := (a.events stmt input).reverse ++ s.told }
  have hreached : s'.reached a node = input := by simp [s', State.reached, hureach, htreach]
  have hleft : s'.left a node = flow stmt input := by simp [s', State.left, huleave]
  refine ⟨s', ?_, ⟨husized, ?_, ?_, ?_, ?_, ?_, rfl⟩⟩
  · simp only [visit, hstmt, hfeeders, reaching_eq_reached hs hn, leaving_eq_left hs hn, hinput,
      htransfer, ht, hu, Option.bind_eq_bind, Option.bind_some]
    cases changed with
    | true => simp only [hreaders, if_true, Option.bind_some, Option.pure_def, s']
    | false => simp only [Bool.false_eq_true, if_false, Option.pure_def, s']
  · exact ⟨feeders, hfeeders, hreached.trans hjoin.symm⟩
  · intro stmt' hstmt'
    rw [hstmt] at hstmt'
    cases hstmt'
    rw [hleft, hreached]
  · intro m hm
    simp [s', State.reached, hureach, htreach, hm]
  · intro m hm
    simp [s', State.left, huleave, htleave, hm]
  · refine ⟨readers, hreaders, ?_⟩
    rw [hleft]
    cases changed with
    | true => exact Or.inr ⟨hchanged.mp rfl, rfl⟩
    | false =>
      left
      refine ⟨?_, rfl⟩
      by_contra hne
      simpa using hchanged.mpr hne

theorem Visited.feeds_le (hb : Graph.build p = .ok g) {node : Nat} (hn : node < g.size)
    {s s' : State F} (h : Visited a g flow node s s') (m : Nat)
    (hm : g.Feeds a.direction m node) : s.left a m ≤ s'.reached a node := by
  obtain ⟨feeders, hfeeders, he⟩ := h.input
  rw [he]
  apply (joinAll_le_iff.mp le_rfl).2
  rw [Graph.mem_feeders_iff hb hn hfeeders]
  exact hm

theorem Visited.inStep {node : Nat} {s s' : State F} (h : Visited a g flow node s s')
    (hstep : s.pending.InStep) : s'.pending.InStep := by
  obtain ⟨readers, -, ⟨-, he⟩ | ⟨-, he⟩⟩ := h.pending
  · exact he ▸ hstep
  · exact he ▸ hstep.pushAll readers

theorem Visited.mem_pending_iff (hb : Graph.build p = .ok g) {node : Nat} (hn : node < g.size)
    {s s' : State F} (h : Visited a g flow node s s') (hstep : s.pending.InStep) (m : Nat) :
    m ∈ s'.pending.toList ↔ m ∈ s.pending.toList ∨
      s'.left a node ≠ s.left a node ∧ g.Feeds a.direction node m := by
  obtain ⟨readers, hreaders, ⟨hsame, he⟩ | ⟨hchanged, he⟩⟩ := h.pending
  · simp [he, hsame]
  · rw [he, Worklist.mem_pushAll hstep, Graph.mem_readers_iff hb hn hreaders]
    simp [hchanged]

end Visit

/-! ## The states of a run -/

/-- The states that a run goes through. -/
inductive Reached (a : Analysis F) (g : Graph) : State F → Prop
  | start {s : State F} : start a g = some s → Reached a g s
  | visit {s s' : State F} {node : Nat} {pending : Worklist} : Reached a g s →
      s.pending.pop? = some (node, pending) → visit a g node { s with pending } = some s' →
      Reached a g s'

/-- The table has one entry per node, and only nodes other than the boundary wait. -/
structure Tidy (a : Analysis F) (g : Graph) (s : State F) : Prop where
  sized : s.facts.Sized g.size
  inStep : s.pending.InStep
  inside : ∀ n ∈ s.pending.toList, n < g.size ∧ n ≠ g.boundary a.direction

/-- Every place has the initial fact, but for the boundary, and every other node waits. -/
structure Started (a : Analysis F) (g : Graph) (s : State F) : Prop where
  waiting : ∀ m, m ∈ s.pending.toList ↔ m < g.size ∧ m ≠ g.boundary a.direction
  reached : ∀ m, s.reached a m = a.initial
  left : ∀ m, s.left a m = if m = g.boundary a.direction then a.boundary else a.initial
  visits : s.visits = 0

theorem start_spec {p : Procedure} {g : Graph} (hb : Graph.build p = .ok g) (a : Analysis F) :
    ∃ s, start a g = some s ∧ Tidy a g s ∧ Started a g s := by
  obtain ⟨t, ht, hsized, hleave, hreach⟩ := FactTable.setLeaving_of_lt
    (FactTable.sized_filled g.size a.initial) a.direction (Graph.boundary_lt hb a.direction)
    a.boundary
  have hwaiting : ∀ m, m ∈ (Worklist.ofList (g.firstVisits a.direction)).toList ↔
      m < g.size ∧ m ≠ g.boundary a.direction := by
    intro m
    rw [Worklist.mem_ofList, Graph.mem_firstVisits]
  refine ⟨_, by rw [start, ht]; rfl, ⟨hsized, Worklist.inStep_ofList _, ?_⟩, hwaiting, ?_, ?_, rfl⟩
  · intro n hn
    exact (hwaiting n).mp hn
  · intro m
    rw [State.reached, hreach]
    cases a.direction <;>
      simp only [FactTable.reaching?, FactTable.in?, FactTable.out?, FactTable.filled,
        Array.getElem?_replicate] <;> split <;> rfl
  · intro m
    rw [State.left, hleave]
    split
    · rfl
    · cases a.direction <;>
        simp only [FactTable.leaving?, FactTable.in?, FactTable.out?, FactTable.filled,
          Array.getElem?_replicate] <;> split <;> rfl

section Run

variable [SemilatticeSup F] {a : Analysis F} {p : Procedure} {g : Graph} {flow : Stmt → F → F}

theorem Tidy.visited (hb : Graph.build p = .ok g) {s s' : State F} {node : Nat}
    {pending : Worklist} (h : Tidy a g s) (hpop : s.pending.pop? = some (node, pending))
    (hv : Visited a g flow node { s with pending } s') : Tidy a g s' := by
  have hstep := h.inStep.of_pop? hpop
  have hnode := (h.inside node (Worklist.mem_of_pop? hpop)).1
  refine ⟨hv.sized, hv.inStep hstep, fun n hn => ?_⟩
  rcases (hv.mem_pending_iff hb hnode hstep n).mp hn with hn | ⟨-, hfeeds⟩
  · exact h.inside n (by simp [Worklist.toList_of_pop? hpop, hn])
  · exact (hfeeds.bounds hb).2

theorem Tidy.visit_spec (hb : Graph.build p = .ok g) (law : Lawful a g flow) {s : State F}
    {node : Nat} {pending : Worklist} (h : Tidy a g s)
    (hpop : s.pending.pop? = some (node, pending)) :
    ∃ s', visit a g node { s with pending } = some s' ∧
      Visited a g flow node { s with pending } s' := by
  have hn := (h.inside node (Worklist.mem_of_pop? hpop)).1
  exact Solver.visit_spec hb law (s := { s with pending }) h.sized hn

/-- What holds at the start and is kept by every visit holds in all states of a run. -/
theorem Reached.induct (hb : Graph.build p = .ok g) (law : Lawful a g flow)
    {P : State F → Prop} (hstart : ∀ s, Reached a g s → Tidy a g s → Started a g s → P s)
    (hvisit : ∀ s s' node pending, Tidy a g s → P s → s.pending.pop? = some (node, pending) →
      Visited a g flow node { s with pending } s' → Reached a g s' → P s')
    {s : State F} (h : Reached a g s) : Tidy a g s ∧ P s := by
  induction h with
  | start hs =>
    obtain ⟨s₀, hs₀, htidy, hstarted⟩ := start_spec hb a
    rw [hs] at hs₀
    cases hs₀
    exact ⟨htidy, hstart _ (.start hs) htidy hstarted⟩
  | @visit s s' node pending hr hpop hstep ih =>
    obtain ⟨htidy, hP⟩ := ih
    obtain ⟨s'', hs'', hv⟩ := htidy.visit_spec hb law hpop
    rw [hstep] at hs''
    cases hs''
    refine ⟨htidy.visited hb hpop hv, ?_⟩
    exact hvisit s s' node pending htidy hP hpop hv (hr.visit hpop hstep)

theorem Reached.tidy (hb : Graph.build p = .ok g) (law : Lawful a g flow) {s : State F}
    (h : Reached a g s) : Tidy a g s :=
  (h.induct (P := fun _ => True) hb law (fun _ _ _ _ => trivial)
    (fun _ _ _ _ _ _ _ _ _ => trivial)).1

theorem run_spec (hb : Graph.build p = .ok g) (law : Lawful a g flow) (cap : Nat) {s : State F}
    (h : Reached a g s) :
    ∃ s', Reached a g s' ∧
      (run a g cap s = s'.finish a .converged ∧ s'.pending.toList = [] ∨
        run a g cap s = s'.finish a .capped ∧ s'.pending.toList ≠ []) := by
  induction cap generalizing s with
  | zero =>
    refine ⟨s, h, ?_⟩
    rw [run]
    by_cases hempty : s.pending.isEmpty = true
    · rw [if_pos hempty]
      exact Or.inl ⟨rfl, (Worklist.isEmpty_iff _).mp hempty⟩
    · rw [if_neg hempty]
      exact Or.inr ⟨rfl, fun he => hempty ((Worklist.isEmpty_iff _).mpr he)⟩
  | succ cap ih =>
    rw [run]
    cases hpop : s.pending.pop? with
    | none => exact ⟨s, h, Or.inl ⟨rfl, (Worklist.pop?_eq_none_iff _).mp hpop⟩⟩
    | some next =>
      obtain ⟨node, pending⟩ := next
      obtain ⟨s', hs', -⟩ := (h.tidy hb law).visit_spec hb law hpop
      simp only [hs']
      exact ih (h.visit hpop hs')

theorem solve_spec (hb : Graph.build p = .ok g) (law : Lawful a g flow) (cap : Nat) :
    ∃ s, Reached a g s ∧
      (solve a g cap = s.finish a .converged ∧ s.pending.toList = [] ∨
        solve a g cap = s.finish a .capped ∧ s.pending.toList ≠ []) := by
  obtain ⟨s, hs, -⟩ := start_spec hb a
  rw [solve, hs]
  exact run_spec hb law cap (.start hs)

theorem solve_sized (hb : Graph.build p = .ok g) (law : Lawful a g flow) (cap : Nat) :
    (solve a g cap).facts.Sized g.size ∧ (solve a g cap).outcome ≠ .stuck := by
  obtain ⟨s, hr, hs⟩ := solve_spec hb law cap
  have hsized := (hr.tidy hb law).sized
  rcases hs with ⟨he, -⟩ | ⟨he, -⟩
  · rw [he]
    exact ⟨hsized, by simp [State.finish]⟩
  · rw [he]
    exact ⟨hsized, by simp [State.finish]⟩

theorem converged_spec (hb : Graph.build p = .ok g) (law : Lawful a g flow) {cap : Nat}
    (hc : (solve a g cap).outcome = .converged) :
    ∃ s, Reached a g s ∧ (solve a g cap).facts = s.facts ∧ s.pending.toList = [] := by
  obtain ⟨s, hr, ⟨he, hp⟩ | ⟨he, -⟩⟩ := solve_spec hb law cap
  · exact ⟨s, hr, by rw [he]; rfl, hp⟩
  · rw [he] at hc
    cases hc

/-! ## Nodes that do not wait are settled -/

/-- A node's output is the transfer of its input, and its input is above all that feed it. -/
structure Settled (a : Analysis F) (g : Graph) (flow : Stmt → F → F) (s : State F)
    (node : Nat) : Prop where
  output : ∀ stmt, g.stmt? node = some stmt → s.left a node = flow stmt (s.reached a node)
  input : ∀ m, g.Feeds a.direction m node → s.left a m ≤ s.reached a node

/-- The boundary keeps its fact, and every other node either waits or is settled. -/
structure Consistent (a : Analysis F) (g : Graph) (flow : Stmt → F → F) (s : State F) : Prop where
  boundary : s.left a (g.boundary a.direction) = a.boundary
  settled : ∀ m, m < g.size → m ≠ g.boundary a.direction → m ∉ s.pending.toList →
    Settled a g flow s m

theorem Consistent.visited (hb : Graph.build p = .ok g) {s s' : State F} {node : Nat}
    {pending : Worklist} (htidy : Tidy a g s) (h : Consistent a g flow s)
    (hpop : s.pending.pop? = some (node, pending))
    (hv : Visited a g flow node { s with pending } s') : Consistent a g flow s' := by
  have hlist := Worklist.toList_of_pop? hpop
  have hnode := htidy.inside node (Worklist.mem_of_pop? hpop)
  have hwaits := hv.mem_pending_iff hb hnode.1 (htidy.inStep.of_pop? hpop)
  -- Whoever reads a changed output waits, so for the others the output is the old one.
  have hold : ∀ m k, k ∉ s'.pending.toList → g.Feeds a.direction m k →
      s'.left a m = s.left a m := by
    intro m k hk hfeeds
    by_cases hm : m = node
    · subst hm
      by_contra hchanged
      exact hk ((hwaits k).mpr (Or.inr ⟨hchanged, hfeeds⟩))
    · exact hv.left_other m hm
  constructor
  · rw [hv.left_other _ (Ne.symm hnode.2)]
    exact h.boundary
  · intro m hm hbound hwait
    by_cases hmn : m = node
    · subst hmn
      refine ⟨hv.output, fun k hk => ?_⟩
      rw [hold k m hwait hk]
      exact hv.feeds_le hb hm k hk
    · have hnot : m ∉ s.pending.toList := by
        rw [hlist, List.mem_cons, not_or]
        exact ⟨hmn, fun hp => hwait ((hwaits m).mpr (Or.inl hp))⟩
      obtain ⟨hout, hin⟩ := h.settled m hm hbound hnot
      refine ⟨?_, fun k hk => ?_⟩
      · rw [hv.left_other m hmn, hv.reached_other m hmn]
        exact hout
      · rw [hold k m hwait hk, hv.reached_other m hmn]
        exact hin k hk

theorem Reached.consistent (hb : Graph.build p = .ok g) (law : Lawful a g flow) {s : State F}
    (h : Reached a g s) : Consistent a g flow s := by
  refine (h.induct hb law ?_ ?_).2
  · intro s _ _ hs
    refine ⟨by rw [hs.left, if_pos rfl], ?_⟩
    intro m hm hbound hwait
    exact absurd ((hs.waiting m).mpr ⟨hm, hbound⟩) hwait
  · intro s s' node pending htidy hP hpop hv _
    exact hP.visited hb htidy hpop hv

/-! ## Properties that meeting and transfer keep -/

theorem Reached.facts_have (hb : Graph.build p = .ok g) (law : Lawful a g flow)
    {P Q : Nat → F → Prop} (hinitial : ∀ m, P m a.initial ∧ Q m a.initial)
    (hboundary : Q (g.boundary a.direction) a.boundary)
    (hmeet : ∀ m k x y, g.Feeds a.direction k m → P m x → Q k y → P m (x ⊔ y))
    (hflow : ∀ m stmt x, m ≠ g.boundary a.direction → g.stmt? m = some stmt → P m x →
      Q m (flow stmt x))
    {s : State F} (h : Reached a g s) (m : Nat) : P m (s.reached a m) ∧ Q m (s.left a m) := by
  refine (h.induct (P := fun s => ∀ m, P m (s.reached a m) ∧ Q m (s.left a m)) hb law ?_ ?_).2 m
  · intro s _ _ hs m
    rw [hs.reached, hs.left]
    refine ⟨(hinitial m).1, ?_⟩
    split
    · rename_i hm
      rw [hm]
      exact hboundary
    · exact (hinitial m).2
  · intro s s' node pending htidy hs hpop hv _ m
    obtain ⟨hn, hne⟩ := htidy.inside node (Worklist.mem_of_pop? hpop)
    by_cases hm : m = node
    · subst hm
      obtain ⟨stmt, hstmt⟩ := Graph.stmt?_of_lt hb hn
      obtain ⟨feeders, hfeeders, hinput⟩ := hv.input
      have hP : P m (s'.reached a m) := by
        rw [hinput]
        apply joinAll_induct _ (hs m).1
        intro k hk x hx
        exact hmeet m k x _ ((Graph.mem_feeders_iff hb hn hfeeders).mp hk) hx (hs k).2
      refine ⟨hP, ?_⟩
      rw [hv.output stmt hstmt]
      exact hflow m stmt _ hne hstmt hP
    · rw [hv.reached_other m hm, hv.left_other m hm]
      exact hs m

end Run

end Solver

end FlowFacts
