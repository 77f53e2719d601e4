import FlowFacts.Proofs.DeadCode
import Mathlib.Data.List.Sort
import Mathlib.Algebra.Order.BigOperators.Group.Finset
import Mathlib.Algebra.Order.Group.Nat

/-! # A walk without marks

A sweep keeps no record of the nodes it has been to. It passes over a node that is no longer dead,
so it takes up a useless assignment every time that it comes by. It ends all the same: such an
assignment only leads on to the next statement. It finds the dead nodes that the walk finds.
-/

namespace FlowFacts.DeadCode

/-! ## The sweep -/

structure Sweep where
  /-- The nodes that have not been shown to be alive. -/
  dead : BitSet
  queue : Queue Nat

/-- All nodes count as dead, and the entry waits. -/
def Sweep.start (g : Graph) : Sweep := ⟨.full g.size, Queue.empty.push g.entry⟩

/-- Leaves a useless assignment dead and takes any other node out, and queues what the constants
leave open. -/
def sweepNode (g : Graph) (constants : FactTable ConstFact) (live : FactTable VarSet)
    (node : Nat) (w : Sweep) : Except Fault Sweep :=
  match g.stmt? node with
  | none => .error (.noNode node)
  | some s => do
    let useless ← useless? live node s
    let chosen ← way g constants node s
    let edges ← edgesAt g node
    return {
      dead := if useless then w.dead else (w.dead.erase node).1
      queue := w.queue.pushAll (chosen.targets edges) }

/-- Takes nodes off the queue until it is empty, at most `pops` of them. A node that is no longer
dead is passed over. -/
def sweep (g : Graph) (constants : FactTable ConstFact) (live : FactTable VarSet) :
    (pops : Nat) → Sweep → Except Fault Sweep
  | 0, w => if w.queue.isEmpty then .ok w else .error .unfinished
  | pops + 1, w =>
    match w.queue.pop? with
    | none => .ok w
    | some (node, queue) =>
      if w.dead.contains node then
        match sweepNode g constants live node { w with queue } with
        | .ok w => sweep g constants live pops w
        | .error fault => .error fault
      else sweep g constants live pops { w with queue }

/-! ## What is left to do -/

section Measure

variable {p : Procedure} {g : Graph} {constants : FactTable ConstFact} {live : FactTable VarSet}

/-- A queued node weighs the more, the further it is from the end of the body. -/
def weight (g : Graph) (nodes : List Nat) : Nat := (nodes.map (g.size - ·)).sum

open Classical in
/-- Bounds the pops that are left: the weight of the queue, and the weight of all that the nodes
may queue that are yet to be taken out. -/
noncomputable def sweepsLeft (g : Graph) (live : FactTable VarSet) (w : Walk) : Nat :=
  weight g w.queue.toList +
    ∑ n ∈ Finset.range g.size with w.dead.contains n = true ∧ ¬ UselessAt g live n,
      outDegree g n * g.size

theorem weight_cons (node : Nat) (nodes : List Nat) :
    weight g (node :: nodes) = (g.size - node) + weight g nodes := by
  simp [weight]

theorem weight_append (l m : List Nat) : weight g (l ++ m) = weight g l + weight g m := by
  simp [weight]

theorem weight_le {nodes : List Nat} {k : Nat} (h : ∀ n ∈ nodes, k ≤ n) :
    weight g nodes ≤ nodes.length * (g.size - k) := by
  induction nodes with
  | nil => simp [weight]
  | cons n nodes ih =>
    rw [List.forall_mem_cons] at h
    have hrest := ih h.2
    have hn := h.1
    rw [weight_cons, List.length_cons, Nat.succ_mul]
    omega

theorem outEdges_useless (hb : Graph.build p = .ok g) {node : Nat} (h : UselessAt g live node) :
    g.outEdges? node = some [⟨node, Graph.next p node, .fallThrough⟩] ∧
      node < Graph.next p node := by
  obtain ⟨s, after, hs, -, v, e, hcommand, -⟩ := h
  rcases Graph.stmt?_cases hb hs with ⟨-, rfl⟩ | ⟨hlt, rfl, hp⟩
  · cases hcommand
  · rw [Graph.outEdges_stmt hb hp, Graph.plainEdges, hcommand]
    refine ⟨rfl, ?_⟩
    unfold Graph.next
    split <;> omega

theorem weight_useless (hb : Graph.build p = .ok g) {node : Nat} (hlt : node < g.size)
    (h : UselessAt g live node) {w w' : Walk} (hv : Visited g constants live node w w') :
    weight g w'.queue.toList < weight g w.queue.toList + (g.size - node) := by
  obtain ⟨targets, hqueue, hmem, hlen⟩ := hv.pushed
  obtain ⟨hes, hnext⟩ := outEdges_useless hb h
  have htargets : ∀ t ∈ targets, node + 1 ≤ t := by
    intro t ht
    obtain ⟨e, ⟨s, f, es, -, -, hes', he, -⟩, rfl⟩ := (hmem t).mp ht
    rw [hes] at hes'
    cases hes'
    rw [List.mem_singleton.mp he]
    exact hnext
  -- One node is queued at most, and it is nearer to the end.
  have hone : targets.length ≤ 1 := by simpa [outDegree, hes] using hlen
  have hweight := weight_le (g := g) htargets
  have hle : targets.length * (g.size - (node + 1)) ≤ 1 * (g.size - (node + 1)) :=
    Nat.mul_le_mul_right _ hone
  rw [hqueue, weight_append]
  omega

theorem weight_visited {node : Nat} {w w' : Walk} (hv : Visited g constants live node w w') :
    weight g w'.queue.toList ≤ weight g w.queue.toList + outDegree g node * g.size := by
  obtain ⟨targets, hqueue, -, hlen⟩ := hv.pushed
  have hweight : weight g targets ≤ targets.length * (g.size - 0) :=
    weight_le fun _ _ => Nat.zero_le _
  have hle : targets.length * (g.size - 0) ≤ outDegree g node * g.size :=
    Nat.mul_le_mul_right _ hlen
  rw [hqueue, weight_append]
  omega

open Classical in
theorem sweepsLeft_visited (hb : Graph.build p = .ok g) {w w' : Walk} {node : Nat}
    {queue : Queue Nat} (hpop : w.queue.pop? = some (node, queue)) (hlt : node < g.size)
    (hdead : w.dead.contains node = true)
    (hv : Visited g constants live node { w with queue } w') :
    sweepsLeft g live w' < sweepsLeft g live w := by
  unfold sweepsLeft
  rw [Queue.toList_of_pop? hpop, weight_cons]
  by_cases huseless : UselessAt g live node
  · -- The node stays dead, so the second part stays as it is.
    have hsame : ∀ n, w'.dead.contains n = true ↔ w.dead.contains n = true := by
      intro n
      rw [hv.dead]
      exact ⟨And.left, fun h => ⟨h, fun he => he ▸ huseless⟩⟩
    have hweight := weight_useless hb hlt huseless hv
    simp only [hsame]
    simp only at hweight
    omega
  · -- The node is taken out, and all that it may queue goes with it.
    have hdead' : ∀ n, w'.dead.contains n = true ∧ ¬ UselessAt g live n ↔
        n ≠ node ∧ w.dead.contains n = true ∧ ¬ UselessAt g live n := by
      intro n
      rw [hv.dead]
      constructor
      · rintro ⟨⟨hdead, himp⟩, hnot⟩
        exact ⟨fun he => hnot (himp he), hdead, hnot⟩
      · rintro ⟨hne, hdead, hnot⟩
        exact ⟨⟨hdead, fun he => absurd he hne⟩, hnot⟩
    have hsum := sum_filter_add (f := fun n => outDegree g n * g.size) hlt ⟨hdead, huseless⟩ hdead'
    have hweight := weight_visited hv
    simp only at hweight
    rw [← hsum]
    omega

open Classical in
theorem sweepsLeft_start (g : Graph) (live : FactTable VarSet) :
    sweepsLeft g live (.start g) ≤ g.size * (g.edges.length + 1) := by
  unfold sweepsLeft
  have hqueue : weight g (Walk.start g).queue.toList ≤ g.size := by
    simp [Walk.start, weight]
  have hsum : ∑ n ∈ Finset.range g.size, outDegree g n * g.size = g.edges.length * g.size := by
    rw [← Finset.sum_mul, sum_outDegree]
  have hle : ∑ n ∈ Finset.range g.size with
      (Walk.start g).dead.contains n = true ∧ ¬ UselessAt g live n, outDegree g n * g.size ≤
      ∑ n ∈ Finset.range g.size, outDegree g n * g.size :=
    Finset.sum_le_sum_of_subset (Finset.filter_subset _ _)
  calc _ ≤ g.size + g.edges.length * g.size := Nat.add_le_add hqueue (hle.trans hsum.le)
    _ = g.size * (g.edges.length + 1) := by
      rw [Nat.mul_add, Nat.mul_one, Nat.mul_comm g.size, Nat.add_comm]

end Measure

/-! ## The dead nodes of a sweep -/

section

variable {p : Procedure} {g : Graph} {constants : FactTable ConstFact} {live : FactTable VarSet}

def Walk.toSweep (w : Walk) : Sweep := ⟨w.dead, w.queue⟩

theorem sweepNode_toSweep {node : Nat} {w w' : Walk}
    (h : visit g constants live node w = .ok w') :
    sweepNode g constants live node w.toSweep = .ok w'.toSweep := by
  unfold visit at h
  unfold sweepNode
  cases hs : g.stmt? node with
  | none => simp [hs] at h
  | some s =>
    simp only [hs, bind_eq_ok_iff] at h ⊢
    obtain ⟨useless, huseless, chosen, hchosen, edges, hedges, h⟩ := h
    cases h
    exact ⟨useless, huseless, chosen, hchosen, edges, hedges, rfl⟩

theorem Sound.resolved_of_not_dead (hb : Graph.build p = .ok g) {w : Walk}
    (h : Sound g constants live w) {node : Nat} (hn : node ∈ w.queue.toList)
    (hdead : ¬ w.dead.contains node = true) : Resolved w node := by
  by_contra hnot
  apply hdead
  rw [h.dead]
  exact ⟨(h.queued node hn).lt_size hb, fun hr => absurd hr hnot⟩

theorem sweepsLeft_pop {w : Walk} {node : Nat} {queue : Queue Nat}
    (hpop : w.queue.pop? = some (node, queue)) :
    sweepsLeft g live w = (g.size - node) + sweepsLeft g live { w with queue } := by
  unfold sweepsLeft
  rw [Queue.toList_of_pop? hpop, weight_cons, Nat.add_assoc]

theorem sweep_spec (hb : Graph.build p = .ok g) (hcov : Covered g constants live) (pops : Nat)
    {w : Walk} (h : Sound g constants live w) (hpops : sweepsLeft g live w ≤ pops) :
    ∃ w', sweep g constants live pops w.toSweep = .ok w'.toSweep ∧ Sound g constants live w' ∧
      w'.queue.toList = [] := by
  induction pops generalizing w with
  | zero =>
    have hempty : w.queue.pop? = none := by
      by_contra hne
      obtain ⟨⟨node, queue⟩, hpop⟩ := Option.ne_none_iff_exists'.mp hne
      have hnode := (h.queued node (Queue.mem_of_pop? hpop)).lt_size hb
      rw [sweepsLeft_pop hpop] at hpops
      omega
    have hnil := (Queue.pop?_eq_none_iff _).mp hempty
    have hisEmpty : w.toSweep.queue.isEmpty = true := (Queue.isEmpty_iff _).mpr hnil
    exact ⟨w, by rw [sweep, if_pos hisEmpty], h, hnil⟩
  | succ pops ih =>
    have hqueue : w.toSweep.queue = w.queue := rfl
    have hdead : w.toSweep.dead = w.dead := rfl
    unfold sweep
    rw [hqueue, hdead]
    cases hpop : w.queue.pop? with
    | none => exact ⟨w, rfl, h, (Queue.pop?_eq_none_iff _).mp hpop⟩
    | some next =>
      obtain ⟨node, queue⟩ := next
      have hmem : node ∈ w.queue.toList := Queue.mem_of_pop? hpop
      have hnode := (h.queued node hmem).lt_size hb
      simp only
      split
      · rename_i hcontains
        obtain ⟨w', hvisit, hv⟩ := visit_spec hb hcov hnode { w with queue }
        have hless := sweepsLeft_visited hb hpop hnode hcontains hv
        have hsound := h.visited hpop hv
        have hswept : sweepNode g constants live node ⟨w.dead, queue⟩ = .ok w'.toSweep :=
          sweepNode_toSweep hvisit
        rw [hswept]
        exact ih hsound (by omega)
      · -- The walk passes over the node as well, because it has been visited.
        rename_i hcontains
        have hsound := h.skip hpop (h.resolved_of_not_dead hb hmem hcontains)
        have hless : sweepsLeft g live w = _ := sweepsLeft_pop hpop
        exact ih hsound (by omega)

/-- However often it takes up a useless assignment, a sweep ends and finds what the walk finds. -/
theorem sweep_eq_detect (hb : Graph.build p = .ok g) (hcov : Covered g constants live)
    {pops : Nat} (hpops : g.size * (g.edges.length + 1) ≤ pops) :
    ∃ w, sweep g constants live pops (.start g) = .ok w ∧ w.queue.toList = [] ∧
      (detect g constants live).result = .ok (w.dead.erase g.exit).1.toList := by
  have hstart : Sound g constants live (.start g) := sound_start
  obtain ⟨w, hsweep, hsound, hdone⟩ := sweep_spec hb hcov pops hstart
    ((sweepsLeft_start g live).trans hpops)
  obtain ⟨dead, hresult, hmem⟩ := detect_covered hb hcov
  refine ⟨w.toSweep, hsweep, hdone, ?_⟩
  rw [hresult]
  congr 1
  apply (ascending_of_detect hresult).eq_of_mem_iff (BitSet.toList_ascending _)
  intro n
  have hswept : w.toSweep.dead = w.dead := rfl
  rw [hmem, hswept, BitSet.mem_toList, BitSet.contains_erase, hsound.dead,
    hsound.resolved_iff hdone]
  exact and_left_comm

end

/-- Both ways of a switch lead to a useless assignment. -/
def meetAtUseless : Procedure where
  vars := #[⟨"n", .int⟩, ⟨"copy", .int⟩]
  params := [⟨0⟩]
  body := #[
    .switch ⟨0⟩ [(1, 1)] 1,
    .assign (.var ⟨1⟩) (.var ⟨0⟩),
    .ret (some ⟨0⟩)]
  params_known := by simp [Var.index]

theorem sweep_meetAtUseless :
    ∃ g constants live w, Graph.build meetAtUseless = .ok g ∧ Covered g constants live ∧
      sweep g constants live (g.size * (g.edges.length + 1)) (.start g) = .ok w ∧
      w.queue.toList = [] ∧ (w.dead.erase g.exit).1.toList = [1] ∧
      (detect g constants live).result = .ok [1] := by
  let g := Graph.link meetAtUseless (meetAtUseless.stmts.map (Graph.plainEdges meetAtUseless))
  let constants := FactTable.filled (g.size + 2) ConstFact.empty
  let live := FactTable.filled (g.size + 2) VarSet.empty
  have hb : Graph.build meetAtUseless = .ok g := rfl
  have hcov : Covered g constants live := by
    constructor
    · intro node hlt
      exact FactTable.reaching_of_lt (FactTable.sized_filled _ _) .forward (by omega)
    · intro node hlt
      exact FactTable.leaving_of_lt (FactTable.sized_filled _ _) .forward (by omega)
  have hdead : (detect g constants live).result.toOption = some [1] := by decide +kernel
  obtain ⟨w, hsweep, hdone, hresult⟩ := sweep_eq_detect hb hcov le_rfl
  rw [hresult] at hdead
  have hlist : (w.dead.erase g.exit).1.toList = [1] := Option.some.inj hdead
  exact ⟨g, constants, live, w, hb, hcov, hsweep, hdone, hlist, hlist ▸ hresult⟩

end FlowFacts.DeadCode
