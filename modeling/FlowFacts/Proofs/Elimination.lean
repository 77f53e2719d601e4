import FlowFacts.Proofs.Reached

/-! # Dead code may be removed

Putting `nop` at every dead node changes no run that can be seen. The two runs go through the
same nodes and agree on the variables that are live, so every statement that is left reads the
same values and computes the same result.
-/

namespace FlowFacts.DeadCode

/-! ## Removing nodes -/

def clear? (p : Procedure) (dead : List Nat) : Option Procedure :=
  dead.foldlM (fun p i => p.setCommand? i .nop) p

/-- `p'` is `p` with `nop` at the dead nodes. -/
structure Cleared (p p' : Procedure) (dead : List Nat) : Prop where
  vars : p'.vars = p.vars
  params : p'.params = p.params
  size : p'.size = p.size
  kept : ∀ i, i ∉ dead → p'.stmt? i = p.stmt? i
  gone : ∀ i ∈ dead, p'.stmt? i = some ⟨i, .nop⟩

theorem cleared_setCommand {p : Procedure} {i : Nat} (hi : i < p.size) :
    ∃ p', p.setCommand? i .nop = some p' ∧ Cleared p p' [i] := by
  refine ⟨{ p with body := p.body.setIfInBounds i .nop },
    by rw [Procedure.setCommand?, if_pos hi], rfl, rfl, ?_, ?_, ?_⟩
  · simp [Procedure.size]
  · intro j hj
    have hne : i ≠ j := fun he => hj (by simp [he])
    simp [Procedure.stmt?, Array.getElem?_setIfInBounds_ne hne]
  · intro j hj
    obtain rfl : j = i := List.mem_singleton.mp hj
    have hlt : j < p.body.size := hi
    simp [Procedure.stmt?, hlt]

theorem Cleared.trans {p q r : Procedure} {ds es : List Nat} (h : Cleared p q ds)
    (k : Cleared q r es) : Cleared p r (ds ++ es) := by
  refine ⟨k.vars.trans h.vars, k.params.trans h.params, k.size.trans h.size, ?_, ?_⟩
  · intro i hi
    rw [List.mem_append, not_or] at hi
    rw [k.kept i hi.2, h.kept i hi.1]
  · intro i hi
    by_cases he : i ∈ es
    · exact k.gone i he
    · rw [k.kept i he]
      exact h.gone i ((List.mem_append.mp hi).resolve_right he)

theorem cleared_of_clear {p : Procedure} {dead : List Nat} (h : ∀ i ∈ dead, i < p.size) :
    ∃ p', clear? p dead = some p' ∧ Cleared p p' dead := by
  induction dead generalizing p with
  | nil => exact ⟨p, rfl, rfl, rfl, rfl, fun _ _ => rfl, by simp⟩
  | cons i dead ih =>
    obtain ⟨q, hq, hfirst⟩ := cleared_setCommand (h i List.mem_cons_self)
    have hrest : ∀ j ∈ dead, j < q.size := fun j hj =>
      hfirst.size ▸ h j (List.mem_cons_of_mem _ hj)
    obtain ⟨p', hp', hlater⟩ := ih hrest
    refine ⟨p', ?_, hfirst.trans hlater⟩
    rw [clear?, List.foldlM_cons, hq]
    exact hp'

/-! ## The graph that is left -/

section Graphs

variable {p p' : Procedure} {g g' : Graph} {dead : List Nat}

theorem Cleared.wellFormed (h : Cleared p p' dead) {s : Stmt} (hs : Graph.WellFormed p s) :
    Graph.WellFormed p' s := by
  refine ⟨?_, ?_⟩
  · intro v hv
    have := hs.known v hv
    rw [Procedure.knows, Procedure.numVars] at this ⊢
    rw [h.vars]
    exact this
  · have := hs.jumps
    unfold Graph.GoodJumps at this ⊢
    rw [h.size]
    exact this

theorem Cleared.plainEdges (h : Cleared p p' dead) (s : Stmt) :
    Graph.plainEdges p' s = Graph.plainEdges p s := by
  unfold Graph.plainEdges Graph.next
  rw [h.size]

theorem Cleared.build (h : Cleared p p' dead) (hb : Graph.build p = .ok g) :
    ∃ g', Graph.build p' = .ok g' := by
  refine ⟨_, (Graph.build_eq_ok_iff p' _).mpr ⟨?_, rfl⟩⟩
  intro s hs
  rw [Graph.mem_stmts] at hs
  by_cases hd : s.index ∈ dead
  · rw [h.gone _ hd, Option.some.injEq] at hs
    rw [← hs]
    exact ⟨by simp [Stmt.defines, Stmt.uses, Command.defines, Command.uses], trivial⟩
  · rw [h.kept _ hd] at hs
    exact h.wellFormed (((Graph.build_eq_ok_iff p g).mp hb).1 s (Graph.mem_stmts.mpr hs))

theorem Cleared.entry (h : Cleared p p' dead) (hb : Graph.build p = .ok g)
    (hb' : Graph.build p' = .ok g') : g'.entry = g.entry := by
  rw [Graph.entry_of_build hb, Graph.entry_of_build hb', h.size]

theorem Cleared.exit (h : Cleared p p' dead) (hb : Graph.build p = .ok g)
    (hb' : Graph.build p' = .ok g') : g'.exit = g.exit := by
  rw [Graph.exit_of_build hb, Graph.exit_of_build hb', h.size]

theorem Cleared.stmt?_kept (h : Cleared p p' dead) (hb : Graph.build p = .ok g)
    (hb' : Graph.build p' = .ok g') {n : Nat} (hn : n ∉ dead) : g'.stmt? n = g.stmt? n := by
  rw [Graph.stmt?, Graph.stmt?, h.entry hb hb', h.exit hb hb', Graph.procedure_of_build hb,
    Graph.procedure_of_build hb', h.kept n hn]

theorem Cleared.stmt?_gone (h : Cleared p p' dead) (hb' : Graph.build p' = .ok g') {n : Nat}
    (hn : n ∈ dead) : g'.stmt? n = some ⟨n, .nop⟩ := by
  rw [Graph.stmt?]
  split
  · rfl
  · rw [Graph.procedure_of_build hb', h.gone n hn]

theorem Cleared.outEdges_of_kept (h : Cleared p p' dead) (hb : Graph.build p = .ok g)
    (hb' : Graph.build p' = .ok g') {n : Nat} (hn : n ∉ dead) {es : List Edge}
    (hes : g.outEdges? n = some es) : g'.outEdges? n = some es := by
  rcases Graph.outEdges_cases hb hes with ⟨rfl, rfl⟩ | ⟨rfl, rfl⟩ | ⟨s, hs, rfl⟩
  · rw [← h.entry hb hb', Graph.outEdges_entry hb', Graph.entryEdge, Graph.entryEdge, h.size]
  · rw [← h.exit hb hb', Graph.outEdges_exit hb']
  · rw [← h.kept n hn] at hs
    rw [Graph.outEdges_stmt hb' hs, h.plainEdges]

theorem Cleared.outEdges_kept (h : Cleared p p' dead) (hb : Graph.build p = .ok g)
    (hb' : Graph.build p' = .ok g') {n : Nat} (hn : n ∉ dead) :
    g'.outEdges? n = g.outEdges? n := by
  have hsize : g'.size = g.size := by rw [Graph.size_of_build hb, Graph.size_of_build hb', h.size]
  by_cases hlt : n < g.size
  · have hes : g.outEdges? n = some g.outTable[n] := Array.getElem?_eq_getElem hlt
    rw [hes, h.outEdges_of_kept hb hb' hn hes]
  · rw [Graph.outEdges?, Graph.outEdges?, Array.getElem?_eq_none (Nat.le_of_not_lt hlt),
      Array.getElem?_eq_none (hsize ▸ Nat.le_of_not_lt hlt : g'.size ≤ n)]

theorem Cleared.outEdges_gone (h : Cleared p p' dead) (hb' : Graph.build p' = .ok g') {n : Nat}
    (hn : n ∈ dead) : g'.outEdges? n = some [⟨n, Graph.next p n, .fallThrough⟩] := by
  rw [Graph.outEdges_stmt hb' (h.gone n hn), h.plainEdges]
  rfl

end Graphs

/-! ## Two runs side by side -/

section Simulation

variable {p p' : Procedure} {g g' : Graph} {dead : List Nat} {live : FactTable VarSet}
  {before after : Nat → VarSet}

/-- A procedure, what is left of it, and what is live in it. -/
structure Elimination (p p' : Procedure) (g g' : Graph) (dead : List Nat)
    (live : FactTable VarSet) (before after : Nat → VarSet) : Prop where
  built : Graph.build p = .ok g
  rebuilt : Graph.build p' = .ok g'
  cleared : Cleared p p' dead
  sets : Liveness.LiveSets g live before after

/-- The runs stand at the same node and agree on what is live there. -/
structure Alike (before : Nat → VarSet) (m m' : Moment) : Prop where
  node : m'.node = m.node
  agree : ∀ v, v ∈ before m.node → m.store v = m'.store v

/-- The second step is the same as the first, unless its node is dead. -/
structure Same (dead : List Nat) (a a' : Action) : Prop where
  node : a'.node = a.node
  eq : a.node ∉ dead → a' = a

theorem Elimination.agree_write (h : Elimination p p' g g' dead live before after) {n t : Nat}
    (hfollows : g.Follows n t) {s : Stmt} (hs : g.stmt? n = some s) {σ τ ρ : Store}
    (hagree : ∀ v, v ∈ before n → σ v = τ v) {result : Option Int32}
    (hyields : s.command.Yields ρ result) :
    ∀ v, v ∈ before t → σ.write s.defines result v = τ.write s.defines result v := by
  intro v hv
  by_cases hdef : s.defines = some v
  · obtain ⟨k, rfl⟩ := hyields.exists_of_defines hdef
    rw [hdef, Store.write_eq, Store.write_eq]
  · rw [Store.write_ne hdef, Store.write_ne hdef]
    apply hagree
    rw [h.sets.before_iff n s hs]
    exact Or.inr ⟨h.sets.after_of_follows n t hfollows v hv, hdef⟩

theorem Elimination.agree_uses (h : Elimination p p' g g' dead live before after) {n : Nat}
    {s : Stmt} (hs : g.stmt? n = some s) {σ τ : Store} (hagree : ∀ v, v ∈ before n → σ v = τ v) :
    ∀ v ∈ s.uses, σ v = τ v := by
  intro v hv
  apply hagree
  rw [h.sets.before_iff n s hs]
  exact Or.inl hv

theorem Elimination.useless (h : Elimination p p' g g' dead live before after) {n : Nat}
    (huseless : UselessAt g live n) :
    ∃ x e, g.stmt? n = some ⟨n, .assign (.var x) e⟩ ∧ ¬ x ∈ after n ∧ e.isPure = true ∧
      g.outEdges? n = some [⟨n, Graph.next p n, .fallThrough⟩] := by
  obtain ⟨s, out, hs, hout, x, e, hc, hx, he⟩ := huseless
  rw [h.sets.outs n (Graph.lt_of_stmt? h.built hs), Option.some.injEq] at hout
  subst hout
  rcases Graph.stmt?_cases h.built hs with ⟨-, rfl⟩ | ⟨-, hindex, hp⟩
  · cases hc
  · obtain ⟨i, c⟩ := s
    simp only at hc hindex
    subst hc hindex
    exact ⟨x, e, hs, hx, he, Graph.outEdges_stmt h.built hp⟩

theorem Elimination.agree_useless (h : Elimination p p' g g' dead live before after) {n t : Nat}
    (hfollows : g.Follows n t) {x : Var} {e : Expr} (hs : g.stmt? n = some ⟨n, .assign (.var x) e⟩)
    (hx : ¬ x ∈ after n) {σ τ : Store} (hagree : ∀ v, v ∈ before n → σ v = τ v)
    (result : Option Int32) :
    ∀ v, v ∈ before t → σ.write (some x) result v = τ v := by
  intro v hv
  have hafter := h.sets.after_of_follows n t hfollows v hv
  have hne : some x ≠ some v := by
    intro he
    exact hx (Option.some.inj he ▸ hafter)
  rw [Store.write_ne hne]
  apply hagree
  rw [h.sets.before_iff n _ hs]
  exact Or.inr ⟨hafter, hne⟩

theorem Elimination.forward (h : Elimination p p' g g' dead live before after) {m m' m₂ : Moment}
    {a : Action} (hm : Alike before m m') (huseless : m.node ∈ dead → UselessAt g live m.node)
    (hstep : Step g m a m₂) :
    ∃ a' m₂', Step g' m' a' m₂' ∧ Same dead a a' ∧ Alike before m₂ m₂' := by
  obtain ⟨n, σ⟩ := m
  obtain ⟨n', τ⟩ := m'
  obtain ⟨rfl, hagree⟩ := hm
  have hfollows := hstep.follows
  by_cases hn : n' ∈ dead
  · -- A useless assignment on one side, `nop` on the other: both go on to the next node.
    obtain ⟨x, e, hs, hx, -, hes⟩ := h.useless (huseless hn)
    have hstep' : Step g' ⟨n', τ⟩ ⟨n', [], none⟩ ⟨Graph.next p n', τ⟩ :=
      .mk (h.cleared.stmt?_gone h.rebuilt hn) (by simp [Ready, Stmt.uses, Command.uses]) rfl
        (h.cleared.outEdges_gone h.rebuilt hn) (List.mem_singleton.mpr rfl) trivial
    obtain ⟨result, -, rfl, rfl⟩ := hstep.of_single_edge hs hes
    exact ⟨_, _, hstep', ⟨rfl, fun hnot => absurd hn hnot⟩, rfl,
      h.agree_useless hfollows hs hx hagree result⟩
  · -- The same statement on both sides. It reads live variables only.
    obtain ⟨s, hs⟩ := Graph.stmt?_of_lt h.built (hfollows.bounds h.built).1
    have hs' := (h.cleared.stmt?_kept h.built h.rebuilt hn).trans hs
    obtain ⟨hstep', hstore, hyields⟩ := hstep.transport hs hs'
      (h.cleared.outEdges_kept h.built h.rebuilt hn) (h.agree_uses hs hagree)
    refine ⟨a, _, hstep', ⟨rfl, fun _ => rfl⟩, rfl, ?_⟩
    rw [hstore]
    exact h.agree_write hfollows hs hagree hyields

theorem Elimination.backward (h : Elimination p p' g g' dead live before after) {m m' m₂' : Moment}
    {a' : Action} (hm : Alike before m m') (huseless : m.node ∈ dead → UselessAt g live m.node)
    (hstep : Step g' m' a' m₂') :
    (∃ a m₂, Step g m a m₂ ∧ Same dead a a' ∧ Alike before m₂ m₂') ∨
      m.node ∈ dead ∧ Stuck g m := by
  obtain ⟨n, σ⟩ := m
  obtain ⟨n', τ⟩ := m'
  obtain ⟨rfl, hagree⟩ := hm
  by_cases hn : n' ∈ dead
  · obtain ⟨x, e, hs, hx, he, hes⟩ := h.useless (huseless hn)
    by_cases hready : Ready σ ⟨n', .assign (.var x) e⟩
    · left
      -- The right-hand side is pure, so the assignment cannot fault.
      have hnofault : ¬ (Command.assign (.var x) e).Faults σ := by
        rintro ⟨_, hvalue, hfault⟩
        cases hvalue
        exact Expr.not_faults_of_isPure he hfault
      obtain ⟨result, hyields⟩ := exists_yields hready hnofault
      have hfirst : Step g ⟨n', σ⟩ _ ⟨Graph.next p n', σ.write (some x) result⟩ :=
        .mk hs hready hyields hes (List.mem_singleton.mpr rfl) trivial
      obtain ⟨_, -, rfl, rfl⟩ := hstep.of_single_edge (h.cleared.stmt?_gone h.rebuilt hn)
        (h.cleared.outEdges_gone h.rebuilt hn)
      exact ⟨_, _, hfirst, ⟨rfl, fun hnot => absurd hn hnot⟩, rfl,
        h.agree_useless hfirst.follows hs hx hagree result⟩
    · exact Or.inr ⟨hn, _, hs, hready⟩
  · left
    obtain ⟨s, hs'⟩ := Graph.stmt?_of_lt h.rebuilt (hstep.follows.bounds h.rebuilt).1
    have hs := (h.cleared.stmt?_kept h.built h.rebuilt hn).symm.trans hs'
    obtain ⟨hfirst, hstore, hyields⟩ := hstep.transport hs' hs
      (h.cleared.outEdges_kept h.built h.rebuilt hn).symm
      (fun v hv => (h.agree_uses hs hagree v hv).symm)
    refine ⟨a', _, hfirst, ⟨rfl, fun _ => rfl⟩, rfl, ?_⟩
    rw [hstore]
    exact h.agree_write hfirst.follows hs hagree hyields

/-- The two runs end together: at the exit, with a fault, or stuck at a node that is left. -/
structure SameFate (g g' : Graph) (dead : List Nat) (m m' : Moment) : Prop where
  ended : m.node = g.exit ↔ m'.node = g'.exit
  faulty : Faulty g m ↔ Faulty g' m'
  stuck : m.node ∉ dead → (Stuck g m ↔ Stuck g' m')

theorem Elimination.sameFate (h : Elimination p p' g g' dead live before after) {m m' : Moment}
    (hm : Alike before m m') (huseless : m.node ∈ dead → UselessAt g live m.node) :
    SameFate g g' dead m m' := by
  obtain ⟨n, σ⟩ := m
  obtain ⟨n', τ⟩ := m'
  obtain ⟨rfl, hagree⟩ := hm
  have hended : n' = g.exit ↔ n' = g'.exit := by rw [h.cleared.exit h.built h.rebuilt]
  by_cases hn : n' ∈ dead
  · -- Neither side is at fault: one assigns what is pure, and the other does nothing.
    refine ⟨hended, iff_of_false ?_ ?_, fun hnot => absurd hn hnot⟩
    · obtain ⟨x, e, hs, -, he, -⟩ := h.useless (huseless hn)
      rintro ⟨s, hs', -, value, hvalue, hfault⟩
      obtain rfl := Option.some.inj (hs.symm.trans hs')
      cases hvalue
      exact Expr.not_faults_of_isPure he hfault
    · rintro ⟨s, hs', -, value, hvalue, -⟩
      obtain rfl := Option.some.inj ((h.cleared.stmt?_gone h.rebuilt hn).symm.trans hs')
      cases hvalue
  · have hsame : ∀ s, g'.stmt? n' = some s ↔ g.stmt? n' = some s := fun s => by
      rw [h.cleared.stmt?_kept h.built h.rebuilt hn]
    have hready : ∀ s, g.stmt? n' = some s → (Ready σ s ↔ Ready τ s) :=
      fun s hs => ready_congr (h.agree_uses hs hagree)
    have hfaults : ∀ s, g.stmt? n' = some s → (s.command.Faults σ ↔ s.command.Faults τ) :=
      fun s hs => Command.faults_congr (h.agree_uses hs hagree)
    refine ⟨hended, ?_, fun _ => ?_⟩
    · refine exists_congr fun s => ?_
      rw [hsame]
      exact and_congr_right fun hs => and_congr (hready s hs) (hfaults s hs)
    · refine exists_congr fun s => ?_
      rw [hsame]
      exact and_congr_right fun hs => not_congr (hready s hs)

end Simulation

/-! ## Whole runs -/

section Runs

variable {p p' : Procedure} {g g' : Graph} {dead : List Nat} {live : FactTable VarSet}
  {before after : Nat → VarSet}

theorem Elimination.alike_start (h : Elimination p p' g g' dead live before after) (σ₀ : Store) :
    Alike before ⟨g.entry, σ₀⟩ ⟨g'.entry, σ₀⟩ :=
  ⟨h.cleared.entry h.built h.rebuilt, fun _ _ => rfl⟩

theorem Elimination.forward_run (h : Elimination p p' g g' dead live before after) {σ₀ : Store}
    (huseless : ∀ trace m, Run g ⟨g.entry, σ₀⟩ trace m → m.node ∈ dead → UselessAt g live m.node)
    {trace : List Action} {m : Moment} (hrun : Run g ⟨g.entry, σ₀⟩ trace m) :
    ∃ trace' m', Run g' ⟨g'.entry, σ₀⟩ trace' m' ∧ List.Forall₂ (Same dead) trace trace' ∧
      Alike before m m' := by
  induction hrun with
  | start => exact ⟨[], _, .start, .nil, h.alike_start σ₀⟩
  | step hrun hstep ih =>
    obtain ⟨trace', m', hrun', hsame, hm⟩ := ih
    obtain ⟨a', m₂', hstep', ha, hm₂⟩ := h.forward hm (huseless _ _ hrun) hstep
    exact ⟨_, _, hrun'.step hstep', List.rel_append hsame (.cons ha .nil), hm₂⟩

theorem Elimination.backward_run (h : Elimination p p' g g' dead live before after) {σ₀ : Store}
    (huseless : ∀ trace m, Run g ⟨g.entry, σ₀⟩ trace m → m.node ∈ dead → UselessAt g live m.node)
    {trace' : List Action} {m' : Moment} (hrun' : Run g' ⟨g'.entry, σ₀⟩ trace' m') :
    (∃ trace m, Run g ⟨g.entry, σ₀⟩ trace m ∧ List.Forall₂ (Same dead) trace trace' ∧
      Alike before m m') ∨
    ∃ trace m done rest, Run g ⟨g.entry, σ₀⟩ trace m ∧ trace' = done ++ rest ∧
      List.Forall₂ (Same dead) trace done ∧ m.node ∈ dead ∧ Stuck g m := by
  induction hrun' with
  | start => exact Or.inl ⟨[], _, .start, .nil, h.alike_start σ₀⟩
  | @step trace' m' m₂' a' hrun' hstep' ih =>
    rcases ih with ⟨trace, m, hrun, hsame, hm⟩ | ⟨trace, m, done, rest, hrun, rfl, hstuck⟩
    · rcases h.backward hm (huseless _ _ hrun) hstep' with ⟨a, m₂, hstep, ha, hm₂⟩ | hstuck
      · exact Or.inl ⟨_, _, hrun.step hstep, List.rel_append hsame (.cons ha .nil), hm₂⟩
      · exact Or.inr ⟨trace, m, trace', [a'], hrun, rfl, hsame, hstuck⟩
    · exact Or.inr ⟨trace, m, done, rest ++ [a'], hrun, List.append_assoc done rest [a'], hstuck⟩

/-- Two runs that have come to the same point in the same way. -/
structure Matched (g g' : Graph) (dead : List Nat) (live : FactTable VarSet)
    (trace trace' : List Action) (m m' : Moment) : Prop where
  steps : List.Forall₂ (Same dead) trace trace'
  node : m'.node = m.node
  agree : ∃ before, live.in? m.node = some before ∧ ∀ v, v ∈ before → m.store v = m'.store v
  fate : SameFate g g' dead m m'

theorem Elimination.matched (h : Elimination p p' g g' dead live before after)
    {trace trace' : List Action} {m m' : Moment} (hlt : m.node < g.size)
    (huseless : m.node ∈ dead → UselessAt g live m.node)
    (hsame : List.Forall₂ (Same dead) trace trace') (hm : Alike before m m') :
    Matched g g' dead live trace trace' m m' :=
  ⟨hsame, hm.node, ⟨_, h.sets.ins _ hlt, hm.agree⟩, h.sameFate hm huseless⟩

theorem lt_size_of_dead (hb : Graph.build p = .ok g) {constants : FactTable ConstFact} {n : Nat}
    (hlt : n < g.size) (hexit : n ≠ g.exit)
    (huseless : Reachable g constants n → UselessAt g live n) : n < p.size := by
  have hentry : n ≠ g.entry := by
    rintro rfl
    obtain ⟨s, after, hs, -, x, e, hc, -⟩ := huseless .entry
    obtain rfl := Graph.eq_nop_of_stmt?_entry hs
    cases hc
  rw [Graph.size_of_build hb] at hlt
  rw [Graph.exit_of_build hb] at hexit
  rw [Graph.entry_of_build hb] at hentry
  omega

/-- With `nop` at the dead nodes the runs match, unless one is stuck at a node that is gone. -/
theorem clear_preserves_runs (hb : Graph.build p = .ok g) (hints : Constants.IntOperands p)
    (hc : (Constants.solve g).outcome = .converged)
    (hl : (Liveness.solve g).outcome = .converged) :
    ∃ report dead p' g', analyze p = .ok report ∧ report.result = .ok dead ∧
      clear? p dead = some p' ∧ Graph.build p' = .ok g' ∧
      ∀ σ₀ : Store, σ₀.Initial p → σ₀.Initial p' ∧
        (∀ trace m, Run g ⟨g.entry, σ₀⟩ trace m →
          ∃ trace' m', Run g' ⟨g'.entry, σ₀⟩ trace' m' ∧
            Matched g g' dead (Liveness.solve g).facts trace trace' m m') ∧
        ∀ trace' m', Run g' ⟨g'.entry, σ₀⟩ trace' m' →
          (∃ trace m, Run g ⟨g.entry, σ₀⟩ trace m ∧
            Matched g g' dead (Liveness.solve g).facts trace trace' m m') ∨
          ∃ trace m done rest, Run g ⟨g.entry, σ₀⟩ trace m ∧ trace' = done ++ rest ∧
            List.Forall₂ (Same dead) trace done ∧ m.node ∈ dead ∧ Stuck g m := by
  obtain ⟨report, dead, hanalyze, hresult, hmem⟩ := analyze_spec hb
  have hinside : ∀ n ∈ dead, n < p.size := by
    intro n hn
    obtain ⟨hlt, hexit, huseless⟩ := (hmem n).mp hn
    exact lt_size_of_dead hb hlt hexit huseless
  obtain ⟨p', hp', hcleared⟩ := cleared_of_clear hinside
  obtain ⟨g', hb'⟩ := hcleared.build hb
  obtain ⟨before, after, hsets⟩ := Liveness.converged_spec hb hl
  have h : Elimination p p' g g' dead _ before after := ⟨hb, hb', hcleared, hsets⟩
  refine ⟨report, dead, p', g', hanalyze, hresult, hp', hb', fun σ₀ hσ => ?_⟩
  have huseless : ∀ trace m, Run g ⟨g.entry, σ₀⟩ trace m → m.node ∈ dead →
      UselessAt g (Liveness.solve g).facts m.node := by
    intro trace m hrun hdead
    apply ((hmem m.node).mp hdead).2.2
    exact reachable_of_run hb hc hσ hrun fun a _ => hints.not_blindAt _ a.node
  have hlt : ∀ trace m, Run g ⟨g.entry, σ₀⟩ trace m → m.node < g.size :=
    fun trace m hrun => hrun.lt_size hb (Graph.boundary_lt hb .forward)
  refine ⟨?_, ?_, ?_⟩
  · intro v
    rw [hcleared.params]
    exact hσ v
  · intro trace m hrun
    obtain ⟨trace', m', hrun', hsame, hm⟩ := h.forward_run huseless hrun
    exact ⟨trace', m', hrun', h.matched (hlt _ _ hrun) (huseless _ _ hrun) hsame hm⟩
  · intro trace' m' hrun'
    rcases h.backward_run huseless hrun' with ⟨trace, m, hrun, hsame, hm⟩ | hstuck
    · exact Or.inl ⟨trace, m, hrun, h.matched (hlt _ _ hrun) (huseless _ _ hrun) hsame hm⟩
    · exact Or.inr hstuck

end Runs

/-- Has a useless assignment, and a call behind a branch that is always taken. -/
def prunable : Procedure where
  vars := #[⟨"n", .int⟩, ⟨"one", .int⟩, ⟨"x", .int⟩]
  params := [⟨0⟩]
  body := #[
    .assign (.var ⟨1⟩) (.literal 1),
    .assign (.var ⟨2⟩) (.var ⟨0⟩),
    .branch (.binary .eq ⟨1⟩ ⟨1⟩) 4,
    .call none "f" [],
    .ret (some ⟨0⟩)]
  params_known := by simp [Var.index]

def prunableGraph : Graph := Graph.link prunable (prunable.stmts.map (Graph.plainEdges prunable))

theorem clear_prunable_preserves_run :
    ∃ report p' g' trace trace' m m', Graph.build prunable = .ok prunableGraph ∧
      analyze prunable = .ok report ∧ report.result = .ok [1, 3] ∧
      clear? prunable [1, 3] = some p' ∧ Graph.build p' = .ok g' ∧
      Run prunableGraph ⟨prunableGraph.entry, .uniform prunable 7⟩ trace m ∧ m.node = 4 ∧
      Run g' ⟨g'.entry, .uniform prunable 7⟩ trace' m' ∧ m'.node = 4 ∧
      List.Forall₂ (Same [1, 3]) trace trace' := by
  have hb : Graph.build prunable = .ok prunableGraph := rfl
  obtain ⟨report, dead, p', g', hanalyze, hresult, hp', hb', hruns⟩ :=
    clear_preserves_runs hb (by decide) (by decide +kernel) (by decide +kernel)
  have hdead : (analyze prunable).toOption.map (·.result.toOption) = some (some [1, 3]) := by
    decide +kernel
  obtain rfl : dead = [1, 3] := by simpa [hanalyze, hresult, Except.toOption] using hdead
  have h₀ : Run prunableGraph ⟨5, .uniform prunable 7⟩ [] ⟨5, .uniform prunable 7⟩ := .start
  have h₁ := h₀.step (.mk (e := ⟨5, 0, .entry⟩) rfl (by decide) rfl rfl (by decide) trivial)
  have h₂ := h₁.step (.mk (e := ⟨0, 1, .fallThrough⟩) rfl (by decide) ⟨_, rfl, rfl⟩ rfl
    (by decide) trivial)
  have h₃ := h₂.step (.mk (e := ⟨1, 2, .fallThrough⟩) rfl (by decide) ⟨_, rfl, rfl⟩ rfl
    (by decide) trivial)
  have h₄ := h₃.step (.mk (e := ⟨2, 4, .ifTrue⟩) rfl (by decide) rfl rfl
    (by decide) (Or.inl ⟨rfl, _, _, rfl, rfl, rfl⟩))
  obtain ⟨-, hforward, -⟩ := hruns _ (Store.initial_uniform prunable 7)
  obtain ⟨trace', m', hrun', hmatched⟩ := hforward _ _ h₄
  exact ⟨report, p', g', _, trace', _, m', hb, hanalyze, hresult, hp', hb', h₄, rfl, hrun',
    hmatched.node, hmatched.steps⟩

end FlowFacts.DeadCode
