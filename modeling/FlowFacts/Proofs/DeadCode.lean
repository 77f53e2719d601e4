import FlowFacts.DeadCode
import FlowFacts.Proofs.Constants
import FlowFacts.Proofs.Liveness

/-! # What the walk finds dead

The walk visits exactly the nodes of `Reachable`, whatever the tables say, and it is over
within one pop for the entry and one for each edge.
-/

namespace FlowFacts.DeadCode

/-! ## Edges that the constants leave open -/

/-- Under the fact, control may leave along the edges of a kind. -/
def Opens (f : ConstFact) : Command → EdgeKind → Prop
  | .branch cond _, kind =>
    (Constants.evaluate cond f = .constant 1 → kind = .ifTrue) ∧
      (Constants.evaluate cond f = .constant 0 → kind = .ifFalse)
  | .switch on cases _, kind => ∀ n, f.get on = .constant n →
      kind = .switchCase n ∨ kind = .switchDefault ∧ n ∉ cases.map Prod.fst
  | .nop, _ | .assign _ _, _ | .goto _, _ | .call _ _ _, _ | .ret _, _ => True

def OpenEdge (g : Graph) (constants : FactTable ConstFact) (node : Nat) (e : Edge) : Prop :=
  ∃ s f es, g.stmt? node = some s ∧ constants.in? node = some f ∧ g.outEdges? node = some es ∧
    e ∈ es ∧ Opens f s.command e.kind

/-- The nodes that open edges lead to from the entry. -/
inductive Reachable (g : Graph) (constants : FactTable ConstFact) : Nat → Prop
  | entry : Reachable g constants g.entry
  | edge {node : Nat} {e : Edge} : Reachable g constants node → OpenEdge g constants node e →
      Reachable g constants e.target

/-- The statement assigns a variable that is not live after it, and does nothing else. -/
def Useless (after : VarSet) (s : Stmt) : Prop :=
  ∃ v e, s.command = .assign (.var v) e ∧ ¬ v ∈ after ∧ e.isPure = true

def UselessAt (g : Graph) (live : FactTable VarSet) (node : Nat) : Prop :=
  ∃ s after, g.stmt? node = some s ∧ live.out? node = some after ∧ Useless after s

/-! ## Decisions at one node -/

section Decisions

variable {p : Procedure} {g : Graph}

theorem Reachable.lt_size (hb : Graph.build p = .ok g) {constants : FactTable ConstFact}
    {node : Nat} (h : Reachable g constants node) : node < g.size := by
  cases h with
  | entry => exact Graph.boundary_lt hb .forward
  | edge _ he =>
    obtain ⟨s, f, es, -, -, hes, he, -⟩ := he
    exact (Graph.target_bounds hb hes he).1

theorem evaluate_condition {cond : Expr} {f : ConstFact} {n : Int32}
    (hcond : cond.isCondition = true) (h : Constants.evaluate cond f = .constant n) :
    n = 1 ∨ n = 0 := by
  cases cond with
  | binary op left right =>
    obtain ⟨a, b, -, -, hv⟩ := Constants.combine_eq_constant_iff.mp h
    exact Operator.truth_cases hcond hv
  | _ => cases hcond

theorem useless?_spec {live : FactTable VarSet} {node : Nat} {s : Stmt} {after : VarSet}
    (h : live.out? node = some after) :
    ∃ b, useless? live node s = .ok b ∧ (b = true ↔ Useless after s) := by
  obtain ⟨i, c⟩ := s
  cases c with
  | assign place e =>
    cases place with
    | var v =>
      refine ⟨!after.contains v && e.isPure, by simp only [useless?, Stmt.defines,
        Command.defines, Stmt.rvalue?, Command.rvalue?, h], ?_⟩
      simp only [Useless, Command.assign.injEq, Place.var.injEq, Bool.and_eq_true,
        Bool.not_eq_true']
      constructor
      · rintro ⟨hv, he⟩
        exact ⟨v, e, ⟨rfl, rfl⟩, Bool.eq_false_iff.mp hv, he⟩
      · rintro ⟨_, _, ⟨rfl, rfl⟩, hv, he⟩
        exact ⟨Bool.eq_false_iff.mpr hv, he⟩
    | field _ _ | element _ _ => exact ⟨false, rfl, by simp [Useless]⟩
  | nop | goto _ | branch _ _ | switch _ _ _ | call _ _ _ | ret _ =>
    refine ⟨false, ?_, by simp [Useless]⟩
    unfold useless?
    split
    · simp_all [Stmt.rvalue?, Command.rvalue?]
    · rfl

section Switch

variable {cases : List (Int32 × Nat)} {i otherwise : Nat} {es : List Edge}

theorem mem_switchEdges
    (hes : es = cases.map (fun c => ⟨i, c.2, .switchCase c.1⟩) ++ [⟨i, otherwise, .switchDefault⟩])
    {e : Edge} :
    e ∈ es ↔ (∃ c ∈ cases, e = ⟨i, c.2, .switchCase c.1⟩) ∨ e = ⟨i, otherwise, .switchDefault⟩ := by
  rw [hes, List.mem_append, List.mem_map, List.mem_singleton]
  simp only [eq_comm]

theorem caseTarget_of_mem (hnodup : (cases.map Prod.fst).Nodup)
    (hes : es = cases.map (fun c => ⟨i, c.2, .switchCase c.1⟩) ++ [⟨i, otherwise, .switchDefault⟩])
    {c : Int32 × Nat} (hc : c ∈ cases) : caseTarget es c.1 otherwise = c.2 := by
  unfold caseTarget
  split
  · rename_i e he
    have hlabel := List.find?_some he
    obtain ⟨d, hd, rfl⟩ | rfl := (mem_switchEdges hes).mp (List.mem_of_find?_eq_some he)
    · have hsame : d.1 = c.1 := by simpa [EdgeKind.label?] using hlabel
      rw [List.inj_on_of_nodup_map hnodup hd hc hsame]
    · simp [EdgeKind.label?] at hlabel
  · rename_i hnone
    have hno := List.find?_eq_none.mp hnone _ ((mem_switchEdges hes).mpr (Or.inl ⟨c, hc, rfl⟩))
    simp [EdgeKind.label?] at hno

theorem caseTarget_of_not_mem
    (hes : es = cases.map (fun c => ⟨i, c.2, .switchCase c.1⟩) ++ [⟨i, otherwise, .switchDefault⟩])
    {n : Int32} (hn : n ∉ cases.map Prod.fst) : caseTarget es n otherwise = otherwise := by
  unfold caseTarget
  split
  · rename_i e he
    have hlabel := List.find?_some he
    obtain ⟨c, hc, rfl⟩ | rfl := (mem_switchEdges hes).mp (List.mem_of_find?_eq_some he)
    · obtain rfl : c.1 = n := by simpa [EdgeKind.label?] using hlabel
      exact absurd (List.mem_map_of_mem hc) hn
    · rfl
  · rfl

theorem eq_caseTarget_iff (hnodup : (cases.map Prod.fst).Nodup)
    (hes : es = cases.map (fun c => ⟨i, c.2, .switchCase c.1⟩) ++ [⟨i, otherwise, .switchDefault⟩])
    (n : Int32) (t : Nat) :
    t = caseTarget es n otherwise ↔ ∃ e ∈ es, e.target = t ∧
      (e.kind = .switchCase n ∨ e.kind = .switchDefault ∧ n ∉ cases.map Prod.fst) := by
  by_cases hn : n ∈ cases.map Prod.fst
  · obtain ⟨c, hc, rfl⟩ := List.mem_map.mp hn
    rw [caseTarget_of_mem hnodup hes hc]
    constructor
    · rintro rfl
      exact ⟨_, (mem_switchEdges hes).mpr (Or.inl ⟨c, hc, rfl⟩), rfl, Or.inl rfl⟩
    · rintro ⟨e, he, rfl, hkind | ⟨-, hno⟩⟩
      · obtain ⟨d, hd, rfl⟩ | rfl := (mem_switchEdges hes).mp he
        · have hsame : d.1 = c.1 := by simpa using hkind
          rw [List.inj_on_of_nodup_map hnodup hd hc hsame]
        · cases hkind
      · exact absurd hn hno
  · rw [caseTarget_of_not_mem hes hn]
    constructor
    · rintro rfl
      exact ⟨_, (mem_switchEdges hes).mpr (Or.inr rfl), rfl, Or.inr ⟨rfl, hn⟩⟩
    · rintro ⟨e, he, rfl, hkind⟩
      obtain ⟨c, hc, rfl⟩ | rfl := (mem_switchEdges hes).mp he
      · rcases hkind with hkind | ⟨hkind, -⟩
        · obtain rfl : c.1 = n := by simpa using hkind
          exact absurd (List.mem_map_of_mem hc) hn
        · cases hkind
      · rfl

end Switch

/-- The chosen way leads along the open edges. -/
def LeadsOn (g : Graph) (constants : FactTable ConstFact) (node : Nat) (s : Stmt) (f : ConstFact)
    (es : List Edge) : Prop :=
  ∃ chosen, way g constants node s = .ok chosen ∧
    (∀ t, t ∈ chosen.targets es ↔ ∃ e ∈ es, e.target = t ∧ Opens f s.command e.kind) ∧
    (chosen.targets es).length ≤ es.length

section Ways

variable {constants : FactTable ConstFact} {node : Nat} {f : ConstFact} {es : List Edge}

theorem leadsOn_all {s : Stmt} (hway : way g constants node s = .ok .all)
    (hopen : ∀ kind, Opens f s.command kind) : LeadsOn g constants node s f es := by
  refine ⟨.all, hway, fun t => ?_, by simp [Way.targets]⟩
  simp [Way.targets, hopen]

theorem leadsOn_branch {cond : Expr} {target : Nat} (hcond : cond.isCondition = true)
    (hf : constants.in? node = some f)
    (hes : es = [⟨node, target, .ifTrue⟩, ⟨node, Graph.next p node, .ifFalse⟩]) :
    LeadsOn g constants node ⟨node, .branch cond target⟩ f es := by
  have hfact : factAt constants node = .ok f := by rw [factAt, hf]
  cases hv : Constants.evaluate cond f with
  | constant n =>
    rcases evaluate_condition hcond hv with rfl | rfl
    · refine ⟨.only .ifTrue, ?_, fun t => ?_, by simp [hes, Way.targets]⟩
      · simp only [way, hfact, bind, Except.bind, hv]
        rfl
      · simp [hes, Way.targets, Opens, hv, eq_comm]
    · refine ⟨.only .ifFalse, ?_, fun t => ?_, by simp [hes, Way.targets]⟩
      · simp only [way, hfact, bind, Except.bind, hv]
        rfl
      · simp [hes, Way.targets, Opens, hv, eq_comm]
  | undefined | nac =>
    apply leadsOn_all
    · simp only [way, hfact, bind, Except.bind, hv]
      rfl
    · intro kind
      simp [Opens, hv]

theorem leadsOn_switch {on : Var} {cases : List (Int32 × Nat)} {otherwise : Nat}
    (hnodup : (cases.map Prod.fst).Nodup) (hf : constants.in? node = some f)
    (hout : g.outEdges? node = some es)
    (hes : es = cases.map (fun c => ⟨node, c.2, .switchCase c.1⟩) ++
      [⟨node, otherwise, .switchDefault⟩]) :
    LeadsOn g constants node ⟨node, .switch on cases otherwise⟩ f es := by
  have hfact : factAt constants node = .ok f := by rw [factAt, hf]
  have hedges : edgesAt g node = .ok es := by rw [edgesAt, hout]
  cases hv : f.get on with
  | constant n =>
    refine ⟨.jump (caseTarget es n otherwise), ?_, fun t => ?_, by simp [hes, Way.targets]⟩
    · simp only [way, hfact, hedges, bind, Except.bind, hv]
      rfl
    · rw [Way.targets, List.mem_singleton, eq_caseTarget_iff hnodup hes]
      simp [Opens, hv]
  | undefined | nac =>
    apply leadsOn_all
    · simp only [way, hfact, bind, Except.bind, hv]
      rfl
    · intro kind
      simp [Opens, hv]

theorem way_spec (hb : Graph.build p = .ok g) {s : Stmt} (hs : g.stmt? node = some s)
    (hf : constants.in? node = some f) (hes : g.outEdges? node = some es) :
    LeadsOn g constants node s f es := by
  have hw := Graph.wellFormed_of_stmt? hb hs
  rcases Graph.stmt?_cases hb hs with ⟨-, rfl⟩ | ⟨-, rfl, hp⟩
  · exact leadsOn_all rfl fun _ => trivial
  have hplain : es = Graph.plainEdges p s :=
    Option.some.inj (hes.symm.trans (Graph.outEdges_stmt hb hp))
  obtain ⟨i, c⟩ := s
  cases c with
  | branch cond target => exact leadsOn_branch hw.jumps.1 hf hplain
  | switch on cases otherwise => exact leadsOn_switch hw.jumps.1 hf hes hplain
  | nop | assign _ _ | goto _ | call _ _ _ | ret _ => exact leadsOn_all rfl fun _ => trivial

end Ways

end Decisions

/-! ## The walk -/

section Walk

variable {p : Procedure} {g : Graph} {constants : FactTable ConstFact} {live : FactTable VarSet}

def Resolved (w : Walk) (node : Nat) : Prop := w.resolved.contains node = true

/-- What holds at every moment of a walk. -/
structure Sound (g : Graph) (constants : FactTable ConstFact) (live : FactTable VarSet)
    (w : Walk) : Prop where
  queued : ∀ n ∈ w.queue.toList, Reachable g constants n
  resolved : ∀ n, Resolved w n → Reachable g constants n
  entry : Resolved w g.entry ∨ g.entry ∈ w.queue.toList
  /-- Nothing that an open edge leads to is lost. -/
  closed : ∀ n e, Resolved w n → OpenEdge g constants n e →
    Resolved w e.target ∨ e.target ∈ w.queue.toList
  dead : ∀ n, w.dead.contains n = true ↔ n < g.size ∧ (Resolved w n → UselessAt g live n)

def outDegree (g : Graph) (node : Nat) : Nat := ((g.outEdges? node).getD []).length

/-- How many pops are left: one for each node in the queue, and one for each edge that a
node still to be resolved may queue. -/
def popsLeft (g : Graph) (w : Walk) : Nat :=
  w.queue.toList.length +
    ∑ n ∈ Finset.range g.size with ¬ w.resolved.contains n = true, outDegree g n

theorem sound_start : Sound g constants live (.start g) := by
  have hnone : ∀ n, ¬ Resolved (Walk.start g) n := by
    intro n
    simp [Resolved, Walk.start]
  have hqueue : (Walk.start g).queue.toList = [g.entry] := by simp [Walk.start]
  refine ⟨?_, ?_, ?_, ?_, ?_⟩
  · intro n hn
    rw [hqueue, List.mem_singleton] at hn
    rw [hn]
    exact .entry
  · exact fun n hn => absurd hn (hnone n)
  · rw [hqueue]
    exact Or.inr (List.mem_singleton.mpr rfl)
  · exact fun n e hn => absurd hn (hnone n)
  · intro n
    rw [Walk.start, BitSet.contains_full]
    exact ⟨fun h => ⟨h, fun hn => absurd hn (hnone n)⟩, And.left⟩

theorem sum_outDegree (g : Graph) : ∑ n ∈ Finset.range g.size, outDegree g n = g.edges.length :=
  Graph.sum_length_lists g.outTable

theorem popsLeft_start (g : Graph) : popsLeft g (.start g) = g.edges.length + 1 := by
  rw [popsLeft, ← sum_outDegree, Nat.add_comm]
  simp [Walk.start]

/-- All that the visit of a node does to the walk. -/
structure Visited (g : Graph) (constants : FactTable ConstFact) (live : FactTable VarSet)
    (node : Nat) (w w' : Walk) : Prop where
  resolved : ∀ n, Resolved w' n ↔ n = node ∨ Resolved w n
  /-- The nodes that open edges lead to join the queue. -/
  pushed : ∃ targets, w'.queue.toList = w.queue.toList ++ targets ∧
    (∀ t, t ∈ targets ↔ ∃ e, OpenEdge g constants node e ∧ e.target = t) ∧
    targets.length ≤ outDegree g node
  dead : ∀ n, w'.dead.contains n = true ↔
    w.dead.contains n = true ∧ (n = node → UselessAt g live n)

theorem Visited.queued {node : Nat} {w w' : Walk} (h : Visited g constants live node w w') (t : Nat) :
    t ∈ w'.queue.toList ↔
      t ∈ w.queue.toList ∨ ∃ e, OpenEdge g constants node e ∧ e.target = t := by
  obtain ⟨targets, hqueue, hmem, -⟩ := h.pushed
  rw [hqueue, List.mem_append, hmem]

theorem Visited.length {node : Nat} {w w' : Walk} (h : Visited g constants live node w w') :
    w'.queue.toList.length ≤ w.queue.toList.length + outDegree g node := by
  obtain ⟨targets, hqueue, -, hlen⟩ := h.pushed
  rw [hqueue, List.length_append]
  omega

/-- The tables have what a walk asks of them. They may have more. -/
structure Covered (g : Graph) (constants : FactTable ConstFact) (live : FactTable VarSet) :
    Prop where
  before : ∀ node, node < g.size → ∃ f, constants.in? node = some f
  after : ∀ node, node < g.size → ∃ after, live.out? node = some after

theorem covered_of_sized (hconstants : constants.Sized g.size) (hlive : live.Sized g.size) :
    Covered g constants live :=
  ⟨fun _ hlt => FactTable.reaching_of_lt hconstants .forward hlt,
    fun _ hlt => FactTable.leaving_of_lt hlive .forward hlt⟩

theorem openEdge_iff {node : Nat} {s : Stmt} {f : ConstFact} {es : List Edge}
    (hs : g.stmt? node = some s) (hf : constants.in? node = some f)
    (hes : g.outEdges? node = some es) (e : Edge) :
    OpenEdge g constants node e ↔ e ∈ es ∧ Opens f s.command e.kind := by
  simp [OpenEdge, hs, hf, hes]

theorem uselessAt_iff {node : Nat} {s : Stmt} {after : VarSet} (hs : g.stmt? node = some s)
    (hafter : live.out? node = some after) : UselessAt g live node ↔ Useless after s := by
  simp [UselessAt, hs, hafter]

theorem visit_spec (hb : Graph.build p = .ok g) (hcov : Covered g constants live) {node : Nat}
    (hlt : node < g.size) (w : Walk) :
    ∃ w', visit g constants live node w = .ok w' ∧ Visited g constants live node w w' := by
  obtain ⟨s, hs⟩ := Graph.stmt?_of_lt hb hlt
  have hes : g.outEdges? node = some g.outTable[node] := Array.getElem?_eq_getElem hlt
  generalize g.outTable[node] = es at hes
  obtain ⟨f, hf⟩ := hcov.before node hlt
  obtain ⟨after, hafter⟩ := hcov.after node hlt
  obtain ⟨useless, huseless, huseless_iff⟩ := useless?_spec (s := s) hafter
  obtain ⟨chosen, hway, htargets, hlen⟩ := way_spec hb hs hf hes
  rw [← uselessAt_iff hs hafter] at huseless_iff
  let w' : Walk :=
    { dead := if useless then w.dead else (w.dead.erase node).1
      resolved := (w.resolved.insert node).1
      queue := w.queue.pushAll (chosen.targets es)
      order := node :: w.order }
  refine ⟨w', ?_, ?_, ?_, ?_⟩
  · simp only [visit, hs, huseless, hway, edgesAt, hes]
    rfl
  · intro n
    exact BitSet.contains_insert w.resolved node n
  · refine ⟨chosen.targets es, Queue.toList_pushAll _ _, fun t => ?_, ?_⟩
    · rw [htargets]
      refine exists_congr fun e => ?_
      rw [openEdge_iff hs hf hes, and_assoc, and_comm (a := e.target = t)]
    · rw [outDegree, hes]
      exact hlen
  · intro n
    cases useless with
    | true =>
      have hnode := huseless_iff.mp rfl
      exact ⟨fun h => ⟨h, fun he => he ▸ hnode⟩, And.left⟩
    | false =>
      have hnode : ¬ UselessAt g live node := fun h => Bool.false_ne_true (huseless_iff.mpr h)
      show (w.dead.erase node).1.contains n = true ↔ _
      rw [BitSet.contains_erase, and_comm]
      refine and_congr_right fun _ => ⟨fun hne he => absurd he hne, fun h he => ?_⟩
      exact hnode (he ▸ h he)

theorem sum_filter_add {f : Nat → Nat} {P Q : Nat → Prop} [DecidablePred P] [DecidablePred Q]
    {size node : Nat} (hlt : node < size) (hnode : P node) (hQ : ∀ n, Q n ↔ n ≠ node ∧ P n) :
    (∑ n ∈ Finset.range size with Q n, f n) + f node = ∑ n ∈ Finset.range size with P n, f n := by
  have hfilter : (Finset.range size).filter Q = ((Finset.range size).filter P).erase node := by
    ext n
    rw [Finset.mem_erase, Finset.mem_filter, Finset.mem_filter, hQ]
    exact and_left_comm
  rw [hfilter]
  exact Finset.sum_erase_add _ f (Finset.mem_filter.mpr ⟨Finset.mem_range.mpr hlt, hnode⟩)

theorem popsLeft_visited {w w' : Walk} {node : Nat} {queue : Queue Nat}
    (hpop : w.queue.pop? = some (node, queue)) (hn : ¬ Resolved w node) (hlt : node < g.size)
    (hv : Visited g constants live node { w with queue } w') : popsLeft g w' < popsLeft g w := by
  have hresolved : ∀ n, ¬ w'.resolved.contains n = true ↔
      n ≠ node ∧ ¬ w.resolved.contains n = true := by
    intro n
    rw [← not_or]
    exact not_congr (hv.resolved n)
  have hsum := sum_filter_add (f := outDegree g) hlt hn hresolved
  have hlength := hv.length
  rw [popsLeft, popsLeft, Queue.toList_of_pop? hpop, List.length_cons, ← hsum]
  simp only at hlength
  omega

theorem Sound.skip {w : Walk} {node : Nat} {queue : Queue Nat} (h : Sound g constants live w)
    (hpop : w.queue.pop? = some (node, queue)) (hn : Resolved w node) :
    Sound g constants live { w with queue } := by
  have hlist := Queue.toList_of_pop? hpop
  have hkeep : ∀ t, Resolved w t ∨ t ∈ w.queue.toList → Resolved w t ∨ t ∈ queue.toList := by
    rintro t (ht | ht)
    · exact Or.inl ht
    · rw [hlist, List.mem_cons] at ht
      rcases ht with rfl | ht
      · exact Or.inl hn
      · exact Or.inr ht
  refine ⟨?_, h.resolved, hkeep _ h.entry, ?_, h.dead⟩
  · intro n hn
    exact h.queued n (by rw [hlist]; exact List.mem_cons_of_mem _ hn)
  · intro n e hn he
    exact hkeep _ (h.closed n e hn he)

theorem Sound.visited {w w' : Walk} {node : Nat} {queue : Queue Nat}
    (h : Sound g constants live w) (hpop : w.queue.pop? = some (node, queue))
    (hv : Visited g constants live node { w with queue } w') : Sound g constants live w' := by
  have hlist := Queue.toList_of_pop? hpop
  have hreach : Reachable g constants node := h.queued node (Queue.mem_of_pop? hpop)
  have hkeep : ∀ t, Resolved w t ∨ t ∈ w.queue.toList → Resolved w' t ∨ t ∈ w'.queue.toList := by
    rintro t (ht | ht)
    · exact Or.inl ((hv.resolved t).mpr (Or.inr ht))
    · rw [hlist, List.mem_cons] at ht
      rcases ht with rfl | ht
      · exact Or.inl ((hv.resolved t).mpr (Or.inl rfl))
      · exact Or.inr ((hv.queued t).mpr (Or.inl ht))
  refine ⟨?_, ?_, hkeep _ h.entry, ?_, ?_⟩
  · intro n hn
    rcases (hv.queued n).mp hn with hn | ⟨e, he, rfl⟩
    · exact h.queued n (by rw [hlist]; exact List.mem_cons_of_mem _ hn)
    · exact hreach.edge he
  · intro n hn
    rcases (hv.resolved n).mp hn with rfl | hn
    · exact hreach
    · exact h.resolved n hn
  · intro n e hn he
    rcases (hv.resolved n).mp hn with rfl | hn
    · exact Or.inr ((hv.queued _).mpr (Or.inr ⟨e, he, rfl⟩))
    · exact hkeep _ (h.closed n e hn he)
  · intro n
    rw [hv.dead, hv.resolved, h.dead, and_assoc, or_imp]
    exact and_congr_right fun _ => and_comm

theorem walk_covered (hb : Graph.build p = .ok g) (hcov : Covered g constants live) (pops : Nat)
    {w : Walk} (h : Sound g constants live w) (hpops : popsLeft g w ≤ pops) :
    ∃ w', walk g constants live pops w = (w', none) ∧ Sound g constants live w' ∧
      w'.queue.toList = [] := by
  induction pops generalizing w with
  | zero =>
    have hempty : w.queue.toList = [] := by
      rw [popsLeft] at hpops
      exact List.eq_nil_of_length_eq_zero (by omega)
    refine ⟨w, ?_, h, hempty⟩
    rw [walk, if_pos ((Queue.isEmpty_iff _).mpr hempty)]
  | succ pops ih =>
    rw [walk]
    cases hpop : w.queue.pop? with
    | none => exact ⟨w, rfl, h, (Queue.pop?_eq_none_iff _).mp hpop⟩
    | some next =>
      obtain ⟨node, queue⟩ := next
      simp only
      by_cases hn : w.resolved.contains node = true
      · -- Passing over a node takes one pop and leaves one node fewer in the queue.
        rw [if_pos hn]
        apply ih (h.skip hpop hn)
        have hlist := Queue.toList_of_pop? hpop
        simp only [popsLeft, hlist, List.length_cons] at hpops ⊢
        omega
      · rw [if_neg hn]
        have hlt : node < g.size := (h.queued node (Queue.mem_of_pop? hpop)).lt_size hb
        obtain ⟨w', hvisit, hv⟩ := visit_spec hb hcov hlt { w with queue }
        have hless := popsLeft_visited hpop hn hlt hv
        rw [hvisit]
        exact ih (h.visited hpop hv) (by omega)

theorem walk_spec (hb : Graph.build p = .ok g) (hconstants : constants.Sized g.size)
    (hlive : live.Sized g.size) (pops : Nat) {w : Walk} (h : Sound g constants live w)
    (hpops : popsLeft g w ≤ pops) :
    ∃ w', walk g constants live pops w = (w', none) ∧ Sound g constants live w' ∧
      w'.queue.toList = [] :=
  walk_covered hb (covered_of_sized hconstants hlive) pops h hpops

theorem walk_of_le {pops more : Nat} {w w' : Walk} (h : walk g constants live pops w = (w', none))
    (hle : pops ≤ more) : walk g constants live more w = (w', none) := by
  -- Induction on the pops of the first walk: the second one takes the same nodes off the queue.
  induction pops generalizing w more with
  | zero =>
    rw [walk] at h
    by_cases hempty : w.queue.isEmpty = true
    · rw [if_pos hempty] at h
      cases more with
      | zero => rw [walk, if_pos hempty, h]
      | succ more =>
        have hpop := (Queue.pop?_eq_none_iff _).mpr ((Queue.isEmpty_iff _).mp hempty)
        simp only [walk, hpop, h]
    · simp [hempty] at h
  | succ pops ih =>
    obtain ⟨more, rfl⟩ : ∃ k, more = k + 1 := ⟨more - 1, by omega⟩
    rw [walk] at h ⊢
    cases hpop : w.queue.pop? with
    | none => simpa [hpop] using h
    | some next =>
      obtain ⟨node, queue⟩ := next
      simp only [hpop] at h ⊢
      split at h
      · rename_i hn
        rw [if_pos hn]
        exact ih h (by omega)
      · rename_i hn
        rw [if_neg hn]
        cases hvisit : visit g constants live node { w with queue } with
        | error fault => simp [hvisit] at h
        | ok w₁ =>
          rw [hvisit] at h
          exact ih h (by omega)

theorem Sound.resolved_iff {w : Walk} (h : Sound g constants live w)
    (hdone : w.queue.toList = []) (n : Nat) : Resolved w n ↔ Reachable g constants n := by
  constructor
  · exact h.resolved n
  · intro hn
    induction hn with
    | entry => simpa [hdone] using h.entry
    | edge _ he ih => simpa [hdone] using h.closed _ _ ih he

theorem detect_covered (hb : Graph.build p = .ok g) (hcov : Covered g constants live) :
    ∃ dead, (detect g constants live).result = .ok dead ∧
      ∀ n, n ∈ dead ↔ n < g.size ∧ n ≠ g.exit ∧
        (Reachable g constants n → UselessAt g live n) := by
  obtain ⟨w, hwalk, hsound, hdone⟩ := walk_covered hb hcov (g.edges.length + 1)
    sound_start (popsLeft_start g).le
  refine ⟨(w.dead.erase g.exit).1.toList, ?_, ?_⟩
  · rw [detect, hwalk]
  · intro n
    rw [BitSet.mem_toList, BitSet.contains_erase, hsound.dead, hsound.resolved_iff hdone]
    exact and_left_comm

theorem detect_spec (hb : Graph.build p = .ok g) (hconstants : constants.Sized g.size)
    (hlive : live.Sized g.size) :
    ∃ dead, (detect g constants live).result = .ok dead ∧
      ∀ n, n ∈ dead ↔ n < g.size ∧ n ≠ g.exit ∧
        (Reachable g constants n → UselessAt g live n) :=
  detect_covered hb (covered_of_sized hconstants hlive)

theorem ascending_of_detect {dead : List Nat} (h : (detect g constants live).result = .ok dead) :
    dead.Pairwise (· < ·) := by
  unfold detect at h
  simp only at h
  split at h
  · cases h
  · obtain rfl := Except.ok.inj h
    exact BitSet.toList_ascending _

theorem not_uselessAt_entry (g : Graph) (live : FactTable VarSet) :
    ¬ UselessAt g live g.entry := by
  rintro ⟨s, after, hs, -, v, e, hcommand, -⟩
  obtain rfl := Graph.eq_nop_of_stmt?_entry hs
  cases hcommand

theorem analyzeWith_solved (hb : Graph.build p = .ok g) (cap cap' : Nat) :
    ∃ log, analyzeWith p (.solved cap) (.solved cap') = .ok
      ⟨log, (detect g (Constants.solveWithin g cap).facts
        (Liveness.solveWithin g cap').facts).result⟩ := by
  simp only [analyzeWith, hb, Supply.facts, bind, Except.bind]
  rw [if_neg (Constants.solveWithin_sized hb cap).2, if_neg (Liveness.solveWithin_sized hb cap').2]
  exact ⟨_, rfl⟩

theorem analyze_spec (hb : Graph.build p = .ok g) :
    ∃ report dead, analyze p = .ok report ∧ report.result = .ok dead ∧
      ∀ n, n ∈ dead ↔ n < g.size ∧ n ≠ g.exit ∧
        (Reachable g (Constants.solve g).facts n → UselessAt g (Liveness.solve g).facts n) := by
  obtain ⟨log, hlog⟩ := analyzeWith_solved hb Solver.defaultCap Solver.defaultCap
  obtain ⟨dead, hdead, hmem⟩ := detect_spec hb (Constants.solveWithin_sized hb _).1
    (Liveness.solveWithin_sized hb _).1
  exact ⟨_, dead, hlog, hdead, hmem⟩

/-- The walk ends and reports what is out of reach or useless, except the exit. -/
theorem detect_exact (hb : Graph.build p = .ok g) (hconstants : constants.Sized g.size)
    (hlive : live.Sized g.size) :
    (∃ w, w.queue.toList = [] ∧ ∀ pops, 1 + g.edges.length ≤ pops →
      walk g constants live pops (.start g) = (w, none)) ∧
    ∃ dead, (detect g constants live).result = .ok dead ∧ dead.Pairwise (· < ·) ∧
      (∀ n, n ∈ dead ↔ n < g.size ∧ n ≠ g.exit ∧ (¬ Reachable g constants n ∨
        Reachable g constants n ∧ UselessAt g live n)) ∧
      g.entry ∉ dead ∧ g.exit ∉ dead := by
  obtain ⟨w, hwalk, -, hdone⟩ := walk_spec hb hconstants hlive (g.edges.length + 1)
    sound_start (popsLeft_start g).le
  obtain ⟨dead, hresult, hmem⟩ := detect_spec hb hconstants hlive
  refine ⟨⟨w, hdone, fun pops hpops => walk_of_le hwalk (by omega)⟩, dead, hresult,
    ascending_of_detect hresult, ?_, ?_, ?_⟩
  · intro n
    rw [hmem]
    by_cases hreach : Reachable g constants n <;> simp [hreach]
  · rw [hmem]
    exact fun h => not_uselessAt_entry g live (h.2.2 .entry)
  · rw [hmem]
    exact fun h => h.2.1 rfl

end Walk

/-- The tables of the walk below say that the parameter is 1 and that nothing is ever live. -/
def pickOne : Procedure where
  vars := #[⟨"x", .int⟩, ⟨"y", .int⟩]
  params := [⟨0⟩]
  body := #[
    .switch ⟨0⟩ [(1, 2)] 1,
    .call none "f" [],
    .branch (.binary .eq ⟨0⟩ ⟨1⟩) 0,
    .assign (.var ⟨1⟩) (.var ⟨0⟩),
    .ret (some ⟨1⟩)]
  params_known := by simp [Var.index]

theorem detect_pickOne_exact :
    ∃ g constants live, Graph.build pickOne = .ok g ∧ constants.Sized g.size ∧
      live.Sized g.size ∧ (detect g constants live).result = .ok [1, 3] ∧
      (∀ n, n ∈ [1, 3] ↔ n < g.size ∧ n ≠ g.exit ∧ (¬ Reachable g constants n ∨
        Reachable g constants n ∧ UselessAt g live n)) := by
  let g := Graph.link pickOne (pickOne.stmts.map (Graph.plainEdges pickOne))
  let constants := FactTable.filled g.size (ConstFact.ofList [(⟨0⟩, .constant 1)])
  let live := FactTable.filled g.size VarSet.empty
  have hb : Graph.build pickOne = .ok g := rfl
  have hconstants : constants.Sized g.size := FactTable.sized_filled _ _
  have hlive : live.Sized g.size := FactTable.sized_filled _ _
  have hdead : (detect g constants live).result.toOption = some [1, 3] := by decide +kernel
  obtain ⟨-, dead, hresult, -, hmem, -⟩ := detect_exact hb hconstants hlive
  rw [hresult] at hdead
  obtain rfl : dead = [1, 3] := Option.some.inj hdead
  exact ⟨g, constants, live, hb, hconstants, hlive, hresult, hmem⟩

end FlowFacts.DeadCode
