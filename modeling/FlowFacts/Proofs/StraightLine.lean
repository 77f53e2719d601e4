import FlowFacts.Proofs.Convergence

/-! # Constant propagation is exact on straight-line code

Soundness alone would allow `nac` everywhere. Where no paths meet and nothing comes from outside,
constant propagation knows as much as a run: each variable that holds a value has that constant,
and each that holds nothing yet is undefined. One visit of each node is enough, because the
worklist goes along the chain of nodes and a changed output only queues the node that waits next.
-/

namespace FlowFacts

/-! ## Chains -/

namespace Graph

variable {p : Procedure} {g : Graph} {d : Direction}

/-- The nodes in the order in which facts come to them. -/
def order (g : Graph) (d : Direction) : List Nat := g.boundary d :: g.firstVisits d

theorem nodup_order (g : Graph) (d : Direction) : (g.order d).Nodup := by
  unfold order
  rw [List.nodup_cons, mem_firstVisits]
  exact ⟨fun h => h.2 rfl, g.nodup_firstVisits d⟩

theorem mem_order (hb : build p = .ok g) {node : Nat} : node ∈ g.order d ↔ node < g.size := by
  have hboundary := boundary_lt hb d
  unfold order
  rw [List.mem_cons, mem_firstVisits]
  constructor
  · rintro (rfl | h)
    · exact hboundary
    · exact h.1
  · intro h
    by_cases hn : node = g.boundary d
    · exact Or.inl hn
    · exact Or.inr ⟨h, hn⟩

/-- Each node passes its facts to the next one in the order, and to no other. -/
def IsChain (g : Graph) (d : Direction) : Prop :=
  ∀ (k : Nat) node, (g.order d)[k]? = some node →
    g.readers? d node = some (g.firstVisits d)[k]?.toList

theorem IsChain.feeds_iff (hb : build p = .ok g) (h : g.IsChain d) {m n : Nat} :
    g.Feeds d m n ↔ ∃ k : Nat, (g.order d)[k]? = some m ∧ (g.firstVisits d)[k]? = some n := by
  constructor
  · intro hfeeds
    have hm := (hfeeds.bounds hb).1
    obtain ⟨k, hk⟩ := List.getElem?_of_mem ((mem_order (d := d) hb).mpr hm)
    rw [← mem_readers_iff hb hm (h k m hk), Option.mem_toList] at hfeeds
    exact ⟨k, hk, hfeeds⟩
  · rintro ⟨k, hm, hn⟩
    have hlt := (mem_order hb).mp (List.mem_of_getElem? hm)
    rw [← mem_readers_iff hb hlt (h k m hm), Option.mem_toList]
    exact hn

end Graph

namespace Solver

variable {F : Type} [SemilatticeSup F] {a : Analysis F} {p : Procedure} {g : Graph}
  {flow : Stmt → F → F}

/-- The first `k` nodes have been visited once, each after the one before it, and the others wait in
their order. -/
structure Swept (a : Analysis F) (g : Graph) (k : Nat) (s : State F) : Prop where
  waiting : s.pending.toList = (g.firstVisits a.direction).drop k
  fresh : ∀ n ∈ (g.firstVisits a.direction).drop k, s.reached a n = a.initial
  passed : ∀ j m n, j < k → (g.order a.direction)[j]? = some m →
    (g.firstVisits a.direction)[j]? = some n → s.reached a n = a.initial ⊔ s.left a m

theorem Visited.reached_of_chain (hb : Graph.build p = .ok g) (hchain : g.IsChain a.direction)
    {k m node : Nat} {s s' : State F} (hm : (g.order a.direction)[k]? = some m)
    (hnode : (g.firstVisits a.direction)[k]? = some node) (hv : Visited a g flow node s s') :
    s'.reached a node = s.reached a node ⊔ s.left a m := by
  have hlt := (Graph.mem_firstVisits.mp (List.mem_of_getElem? hnode)).1
  obtain ⟨feeders, hfeeders, hinput⟩ := hv.input
  have hmem : ∀ x, x ∈ feeders ↔ x = m := by
    intro x
    rw [Graph.mem_feeders_iff hb hlt hfeeders, hchain.feeds_iff hb]
    constructor
    · rintro ⟨j, hx, hj⟩
      have hlen := (List.getElem?_eq_some_iff.mp hj).1
      obtain rfl := (List.getElem?_inj hlen (g.nodup_firstVisits _)).mp (hj.trans hnode.symm)
      exact Option.some.inj (hx.symm.trans hm)
    · rintro rfl
      exact ⟨k, hm, hnode⟩
  rw [hinput]
  apply eq_of_forall_ge_iff
  intro y
  rw [joinAll_le_iff, sup_le_iff]
  simp only [hmem, forall_eq]

theorem Visited.toList_of_chain (hchain : g.IsChain a.direction) {k node : Nat} {s s' : State F}
    (hnode : (g.order a.direction)[k]? = some node) (hstep : s.pending.InStep)
    (hwaiting : s.pending.toList = (g.firstVisits a.direction).drop k)
    (hv : Visited a g flow node s s') :
    s'.pending.toList = (g.firstVisits a.direction).drop k := by
  obtain ⟨readers, hreaders, ⟨-, he⟩ | ⟨-, he⟩⟩ := hv.pending
  · rw [he]
    exact hwaiting
  · rw [hchain k node hnode, Option.some.injEq] at hreaders
    rw [he, ← hwaiting]
    apply Worklist.toList_pushAll_of_mem hstep
    intro n hn
    rw [← hreaders, Option.mem_toList] at hn
    rw [hwaiting]
    apply List.mem_of_getElem? (i := 0)
    rw [List.getElem?_drop]
    exact hn

theorem Swept.visited (hb : Graph.build p = .ok g) (hchain : g.IsChain a.direction) {k : Nat}
    (hk : k < (g.firstVisits a.direction).length) {s s' : State F} {node : Nat}
    {pending : Worklist} (htidy : Tidy a g s) (h : Swept a g k s)
    (hpop : s.pending.pop? = some (node, pending))
    (hv : Visited a g flow node { s with pending } s') : Swept a g (k + 1) s' := by
  have hdrop := List.drop_eq_getElem_cons hk
  have hlist := h.waiting
  have hfresh := h.fresh
  rw [Worklist.toList_of_pop? hpop, hdrop, List.cons.injEq] at hlist
  obtain ⟨rfl, hrest⟩ := hlist
  rw [hdrop, List.forall_mem_cons] at hfresh
  have hnode := List.getElem?_eq_getElem hk
  have hnext : (g.order a.direction)[k + 1]? = some (g.firstVisits a.direction)[k] := hnode
  -- No other place of the order has the node that is visited.
  have hother : ∀ (j : Nat) m, j ≠ k + 1 → (g.order a.direction)[j]? = some m →
      m ≠ (g.firstVisits a.direction)[k] := by
    rintro j m hj hm rfl
    have hlen := (List.getElem?_eq_some_iff.mp hm).1
    exact hj ((List.getElem?_inj hlen (g.nodup_order _)).mp (hm.trans hnext.symm))
  constructor
  · exact hv.toList_of_chain hchain hnext (htidy.inStep.of_pop? hpop) hrest
  · intro n hn
    obtain ⟨i, hi⟩ := List.getElem?_of_mem hn
    rw [List.getElem?_drop] at hi
    rw [hv.reached_other n (hother (k + 1 + i + 1) n (by omega) hi)]
    exact hfresh.2 n hn
  · intro j m n hj hm hn
    rw [hv.left_other m (hother j m (by omega) hm)]
    by_cases hjk : j = k
    · subst hjk
      obtain rfl := Option.some.inj (hn.symm.trans hnode)
      rw [hv.reached_of_chain hb hchain hm hn]
      exact congrArg (· ⊔ _) hfresh.1
    · rw [hv.reached_other n (hother (j + 1) n (by omega) hn)]
      exact h.passed j m n (by omega) hm hn

theorem stateAfter_swept (hb : Graph.build p = .ok g) (law : Lawful a g flow)
    (hchain : g.IsChain a.direction) {k : Nat} (hk : k ≤ (g.firstVisits a.direction).length) :
    ∃ s, stateAfter a g k = some s ∧ Reached a g s ∧ Swept a g k s := by
  induction k with
  | zero =>
    obtain ⟨s, hs, -, hstarted⟩ := start_spec hb a
    refine ⟨s, hs, .start hs, toList_pending_start hs, fun n _ => hstarted.reached n, ?_⟩
    intro j m n hj
    omega
  | succ k ih =>
    obtain ⟨s, hs, hr, h⟩ := ih (by omega)
    have hwaits : s.pending.toList ≠ [] := by
      rw [h.waiting, List.drop_eq_getElem_cons hk]
      exact List.cons_ne_nil _ _
    obtain ⟨node, pending, s', hpop, hs', hr', hv⟩ := stateAfter_succ hb law hs hr hwaits
    exact ⟨s', hs', hr', h.visited hb hchain hk (hr.tidy hb law) hpop hv⟩

theorem chain_spec (hb : Graph.build p = .ok g) (law : Lawful a g flow)
    (hchain : g.IsChain a.direction) :
    EndsAfter a g (g.firstVisits a.direction).length ∧
      ∃ s, stateAfter a g (g.firstVisits a.direction).length = some s ∧ Reached a g s ∧
        s.pending.toList = [] ∧
        ∀ m n, g.Feeds a.direction m n → s.reached a n = a.initial ⊔ s.left a m := by
  obtain ⟨s, hs, hr, hswept⟩ := stateAfter_swept hb law hchain le_rfl
  have hdone : s.pending.toList = [] := by rw [hswept.waiting, List.drop_length]
  refine ⟨endsAfter_of_drained hb law hs hdone ?_, s, hs, hr, hdone, ?_⟩
  · intro j hj t ht hempty
    obtain ⟨t', ht', -, hswept'⟩ := stateAfter_swept hb law hchain hj.le
    obtain rfl := Option.some.inj (ht.symm.trans ht')
    rw [hswept'.waiting, List.drop_eq_nil_iff] at hempty
    omega
  · intro m n hfeeds
    obtain ⟨k, hm, hn⟩ := (hchain.feeds_iff hb).mp hfeeds
    exact hswept.passed k m n (List.getElem?_eq_some_iff.mp hn).1 hm hn

end Solver

/-! ## Straight lines -/

/-- The command does nothing, or assigns a literal, a variable or an operation to a variable. -/
def Command.isPlain : Command → Bool
  | .nop | .assign (.var _) (.literal _) | .assign (.var _) (.var _)
  | .assign (.var _) (.binary _ _ _) => true
  | _ => false

def Command.isReturn : Command → Bool
  | .ret _ => true
  | _ => false

/-- Nothing comes from outside, all variables hold integers, and the statements are plain. The last
one may be a return. -/
structure StraightLine (p : Procedure) : Prop where
  params : p.params = []
  ints : ∀ info ∈ p.vars, info.ty.holdsInt = true
  plain : ∀ s ∈ p.stmts, s.command.isPlain = true ∨
    s.command.isReturn = true ∧ s.index + 1 = p.size

namespace StraightLine

variable {p : Procedure} {g : Graph}

theorem plainEdges (h : StraightLine p) {s : Stmt} (hs : s ∈ p.stmts) :
    ∃ kind, Graph.plainEdges p s = [⟨s.index, Graph.next p s.index, kind⟩] := by
  obtain ⟨i, c⟩ := s
  rcases h.plain _ hs with hc | ⟨hc, hlast⟩
  · cases c with
    | nop => exact ⟨_, rfl⟩
    | assign place value => exact ⟨_, rfl⟩
    | _ => cases hc
  · cases c with
    | ret v =>
      have hnext : Graph.next p i = p.size + 1 := if_pos hlast
      exact ⟨.ret, by rw [hnext]; rfl⟩
    | _ => cases hc

theorem succs (hb : Graph.build p = .ok g) (h : StraightLine p) {i : Nat} (hi : i < p.size) :
    g.succs? i = some [Graph.next p i] := by
  obtain ⟨s, hs⟩ : ∃ s, p.stmt? i = some s := by
    rw [Procedure.stmt?, Array.getElem?_eq_getElem hi]
    exact ⟨_, rfl⟩
  have hindex := (Graph.stmt?_bounds hs).1
  obtain ⟨kind, hedges⟩ := h.plainEdges (Graph.mem_stmts.mpr (hindex ▸ hs))
  rw [Graph.succs?, Graph.outEdges_stmt hb hs, hedges, hindex]
  rfl

theorem isChain (hb : Graph.build p = .ok g) (h : StraightLine p) : g.IsChain .forward := by
  intro k node hnode
  have hvisits := Graph.firstVisits_forward hb
  unfold Graph.order Graph.boundary at hnode
  rw [hvisits] at hnode ⊢
  show g.succs? node = _
  cases k with
  | zero =>
    obtain rfl : g.entry = node := by simpa using hnode
    rw [Graph.succs?, Graph.outEdges_entry hb]
    -- The entry leads to the first statement, or to the exit of an empty body.
    by_cases hsize : p.size = 0
    · simp [Graph.entryEdge, hsize]
    · simp [Graph.entryEdge, hsize, Nat.pos_of_ne_zero hsize]
  | succ k =>
    rw [List.getElem?_cons_succ] at hnode
    rcases Nat.lt_trichotomy k p.size with hk | hk | hk
    · obtain rfl : k = node := by simpa [List.getElem?_append_left, hk] using hnode
      rw [h.succs hb hk, Graph.next]
      -- A statement leads to the next one, and the last one to the exit.
      by_cases hlast : k + 1 = p.size
      · simp [hlast]
      · have hlt : k + 1 < p.size := by omega
        simp [hlast, List.getElem?_append_left, hlt]
    · subst hk
      obtain rfl : p.size + 1 = node := by simpa using hnode
      have hnone : g.succs? (p.size + 1) = some [] := by
        rw [← Graph.exit_of_build hb, Graph.succs?, Graph.outEdges_exit hb]
        rfl
      simp [hnone]
    · rw [List.getElem?_eq_none (by simp; omega)] at hnode
      cases hnode

theorem length_firstVisits (hb : Graph.build p = .ok g) :
    (g.firstVisits .forward).length = p.size + 1 := by
  rw [Graph.firstVisits_forward hb]
  simp

theorem followed (h : StraightLine p) {v : Var} (hv : p.knows v = true) :
    Constants.Followed p v := by
  have hlt : v.index < p.vars.size := of_decide_eq_true hv
  unfold Constants.Followed Procedure.holdsInt? Procedure.varType?
  simp [hlt, h.ints _ (Array.getElem_mem hlt)]

theorem run_or_stops (hb : Graph.build p = .ok g) (h : StraightLine p) (σ₀ : Store) {i : Nat}
    (hi : i < p.size) :
    (∃ trace σ, Run g ⟨g.entry, σ₀⟩ trace ⟨i, σ⟩) ∨
      ∃ j trace σ, j < i ∧ Run g ⟨g.entry, σ₀⟩ trace ⟨j, σ⟩ ∧
        (Stuck g ⟨j, σ⟩ ∨ Faulty g ⟨j, σ⟩) := by
  induction i with
  | zero =>
    have htarget : (Graph.entryEdge p).target = 0 := if_neg (by omega)
    have hstep := Step.mk (σ := σ₀) (Graph.stmt?_entry g) (fun _ hv => by cases hv) rfl
      (Graph.outEdges_entry hb) (List.mem_singleton.mpr rfl) trivial
    rw [htarget] at hstep
    exact Or.inl ⟨_, _, Run.start.step hstep⟩
  | succ i ih =>
    rcases ih (by omega) with ⟨trace, σ, hrun⟩ | ⟨j, trace, σ, hj, hstops⟩
    · by_cases hstuck : Stuck g ⟨i, σ⟩
      · exact Or.inr ⟨i, trace, σ, by omega, hrun, Or.inl hstuck⟩
      by_cases hfault : Faulty g ⟨i, σ⟩
      · exact Or.inr ⟨i, trace, σ, by omega, hrun, Or.inr hfault⟩
      have hlt : i < g.size := by
        rw [Graph.size_of_build hb]
        omega
      have hexit : i ≠ g.exit := by
        rw [Graph.exit_of_build hb]
        omega
      obtain ⟨a, ⟨node, τ⟩, hstep⟩ := exists_step hb hlt hexit hstuck hfault
      obtain ⟨ts, hts, hmem⟩ := Graph.succs_of_lt hlt
      obtain rfl := Option.some.inj ((h.succs hb (by omega)).symm.trans hts)
      obtain rfl : node = i + 1 := by
        have hnode := List.mem_singleton.mp ((hmem node).mpr hstep.follows)
        rw [hnode, Graph.next, if_neg (by omega)]
      exact Or.inl ⟨_, _, hrun.step hstep⟩
    · exact Or.inr ⟨j, trace, σ, by omega, hstops⟩

end StraightLine

/-! ## Facts that mirror a store -/

namespace Constants

/-- The fact knows what each variable holds, and which ones hold nothing. -/
structure Mirrors (f : ConstFact) (σ : Store) : Prop where
  held : ∀ v n, σ v = some n → f.get v = .constant n
  unassigned : ∀ v, σ v = none → f.get v = .undefined

section Mirror

variable {p : Procedure} {g : Graph} {f : ConstFact} {σ : Store}

theorem Mirrors.of_get_eq {f' : ConstFact} (h : Mirrors f σ) (hget : ∀ v, f'.get v = f.get v) :
    Mirrors f' σ :=
  ⟨fun v n hv => (hget v).trans (h.held v n hv), fun v hv => (hget v).trans (h.unassigned v hv)⟩

theorem Mirrors.write {f' : ConstFact} (h : Mirrors f σ) {v : Var} {n : Int32}
    (hget : ∀ u, f'.get u = if u = v then .constant n else f.get u) :
    Mirrors f' (σ.write (some v) (some n)) := by
  constructor
  · intro u m hm
    rw [hget]
    by_cases hu : u = v
    · subst hu
      rw [Store.write_eq, Option.some.injEq] at hm
      rw [if_pos rfl, hm]
    · rw [Store.write_ne fun hd => hu (Option.some.inj hd).symm] at hm
      rw [if_neg hu]
      exact h.held u m hm
  · intro u hnone
    by_cases hu : u = v
    · subst hu
      rw [Store.write_eq] at hnone
      cases hnone
    · rw [Store.write_ne fun hd => hu (Option.some.inj hd).symm] at hnone
      rw [hget, if_neg hu]
      exact h.unassigned u hnone

theorem Mirrors.evaluate (h : Mirrors f σ) {v : Var} {e : Expr} {n : Int32}
    (hplain : (Command.assign (.var v) e).isPlain = true) (hn : e.MayBe σ n) :
    evaluate e f = .constant n := by
  cases e with
  | literal k =>
    obtain rfl : n = k := hn
    rfl
  | var u => exact h.held u n hn
  | binary op left right =>
    obtain ⟨a, b, ha, hb, hv⟩ := hn
    exact combine_eq_constant_iff.mpr ⟨a, b, h.held left a ha, h.held right b hb, hv⟩
  | _ => cases hplain

theorem Mirrors.flow (h : Mirrors f σ) {s : Stmt}
    (hs : s.command.isPlain = true ∨ s.command.isReturn = true)
    (hdef : ∀ v ∈ s.defines, Followed p v) {result : Option Int32}
    (hy : s.command.Yields σ result) : Mirrors (flow p s f) (σ.write s.defines result) := by
  have hkept : s.defines = none → Mirrors (Constants.flow p s f) (σ.write s.defines result) := by
    intro hnone
    rw [hnone]
    apply h.of_get_eq
    intro u
    simp [get_flow, hnone]
  obtain ⟨i, c⟩ := s
  cases c with
  | nop => exact hkept rfl
  | ret v => exact hkept rfl
  | assign place e =>
    have hplain := hs.resolve_right Bool.false_ne_true
    cases place with
    | var v =>
      obtain ⟨n, hn, rfl⟩ := hy
      have hv : Followed p v := hdef v rfl
      apply h.write
      intro u
      rw [get_flow]
      by_cases hu : u = v
      · subst hu
        rw [if_pos ⟨rfl, hv⟩, if_pos rfl]
        exact h.evaluate hplain hn
      · rw [if_neg hu, if_neg fun hd => hu (Option.some.inj hd.1).symm]
    | field _ _ | element _ _ => cases hplain
  | goto _ | branch _ _ | switch _ _ _ | call _ _ _ => rcases hs with hs | hs <;> cases hs

theorem mirrors_boundary (h : StraightLine p) (hσ : σ.Initial p) : Mirrors (boundary p) σ := by
  have hnone : ∀ v, σ v = none := by
    intro v
    have hv := hσ v
    rw [h.params] at hv
    simpa using hv
  refine ⟨fun v n hn => ?_, fun v _ => ?_⟩
  · rw [hnone v] at hn
    cases hn
  · rw [get_boundary, h.params]
    simp

/-- The fact that reaches the node mirrors the store. At the entry nothing has been assigned yet. -/
def MirroredAt (p : Procedure) (g : Graph) (s : Solver.State ConstFact) (m : Moment) : Prop :=
  if m.node = g.entry then m.store.Initial p
  else Mirrors (s.reached (analysis p) m.node) m.store

theorem mirrors_left (hb : Graph.build p = .ok g) (h : StraightLine p)
    {s : Solver.State ConstFact} (hr : Solver.Reached (analysis p) g s)
    (hdone : s.pending.toList = []) {m : Moment} (hm : MirroredAt p g s m) {stmt : Stmt}
    {result : Option Int32} (hs : g.stmt? m.node = some stmt)
    (hy : stmt.command.Yields m.store result) :
    Mirrors (s.left (analysis p) m.node) (m.store.write stmt.defines result) := by
  unfold MirroredAt at hm
  rcases left_of_done hb hr hdone hs with ⟨hentry, rfl, hleft⟩ | ⟨hentry, hleft⟩
  · rw [if_pos hentry] at hm
    rw [hleft]
    exact mirrors_boundary h hm
  · rw [if_neg hentry] at hm
    have hknown := (Graph.wellFormed_of_stmt? hb hs).known
    rw [hleft]
    refine hm.flow ?_ (fun v hv => h.followed (hknown v (by simp [Option.mem_def.mp hv]))) hy
    rcases Graph.nop_or_mem_stmts hb hs with rfl | hmem
    · exact Or.inl rfl
    · exact (h.plain stmt hmem).imp_right And.left

theorem mirroredAt_of_step (hb : Graph.build p = .ok g) (h : StraightLine p)
    {s : Solver.State ConstFact} (hr : Solver.Reached (analysis p) g s)
    (hdone : s.pending.toList = [])
    (hpassed : ∀ m n, g.Follows m n → s.reached (analysis p) n = .empty ⊔ s.left (analysis p) m)
    {m m' : Moment} {a : Action} (hm : MirroredAt p g s m) (hstep : Step g m a m') :
    MirroredAt p g s m' := by
  have hfollows := hstep.follows
  have hleft : Mirrors (s.left (analysis p) m.node) m'.store := by
    cases hstep with
    | mk hs _ hy _ _ _ => exact mirrors_left hb h hr hdone hm hs hy
  rw [MirroredAt, if_neg (hfollows.bounds hb).2.2.1]
  apply hleft.of_get_eq
  intro v
  rw [hpassed m.node m'.node hfollows, ConstFact.get_sup, ConstFact.get_empty,
    Value.meet_undefined]

theorem mirroredAt_of_run (hb : Graph.build p = .ok g) (h : StraightLine p)
    {s : Solver.State ConstFact} (hr : Solver.Reached (analysis p) g s)
    (hdone : s.pending.toList = [])
    (hpassed : ∀ m n, g.Follows m n → s.reached (analysis p) n = .empty ⊔ s.left (analysis p) m)
    {σ₀ : Store} (hσ : σ₀.Initial p) {trace : List Action} {m : Moment}
    (hrun : Run g ⟨g.entry, σ₀⟩ trace m) : MirroredAt p g s m := by
  induction hrun with
  | start =>
    rw [MirroredAt, if_pos rfl]
    exact hσ
  | step _ hstep ih => exact mirroredAt_of_step hb h hr hdone hpassed ih hstep

/-- On straight-line code one visit of each statement and of the exit makes the facts exact. -/
theorem straightLine_exact (hb : Graph.build p = .ok g) (h : StraightLine p) :
    Solver.EndsAfter (analysis p) g (p.size + 1) ∧
    (∀ cap, p.size + 1 ≤ cap →
      (solveWithin g cap).outcome = .converged ∧ (solveWithin g cap).visits = p.size + 1 ∧
      ∀ σ₀ : Store, σ₀.Initial p → ∀ trace m, Run g ⟨g.entry, σ₀⟩ trace m → m.node ≠ g.entry →
        ∃ before, (solveWithin g cap).facts.in? m.node = some before ∧ Mirrors before m.store) ∧
    ∀ σ₀ i, i < p.size → (∃ trace σ, Run g ⟨g.entry, σ₀⟩ trace ⟨i, σ⟩) ∨
      ∃ j trace σ, j < i ∧ Run g ⟨g.entry, σ₀⟩ trace ⟨j, σ⟩ ∧
        (Stuck g ⟨j, σ⟩ ∨ Faulty g ⟨j, σ⟩) := by
  obtain ⟨hends, s, hs, hr, hdone, hpassed⟩ := Solver.chain_spec hb (lawful hb) (h.isChain hb)
  rw [show (g.firstVisits (analysis p).direction).length = p.size + 1 from
    StraightLine.length_firstVisits hb] at hends hs
  refine ⟨hends, ?_, fun σ₀ i hi => h.run_or_stops hb σ₀ hi⟩
  intro cap hcap
  obtain ⟨s', hs', -, hsolve⟩ := hends.drained
  obtain rfl := Option.some.inj (hs.symm.trans hs')
  rw [solveWithin, Graph.procedure_of_build hb, hsolve cap hcap]
  refine ⟨rfl, rfl, ?_⟩
  intro σ₀ hσ trace m hrun hm
  have hlt := hrun.lt_size hb (Graph.boundary_lt hb .forward)
  have hmirrors := mirroredAt_of_run hb h hr hdone hpassed hσ hrun
  rw [MirroredAt, if_neg hm] at hmirrors
  exact ⟨_, Solver.reaching_eq_reached (a := analysis p) (hr.tidy hb (lawful hb)).sized hlt,
    hmirrors⟩

end Mirror

/-- Squares a number and then divides by a variable that nothing has assigned. -/
def square : Procedure where
  vars := #[⟨"x", .int⟩, ⟨"y", .int⟩, ⟨"z", .int⟩]
  params := []
  body := #[
    .assign (.var ⟨0⟩) (.literal 6),
    .assign (.var ⟨1⟩) (.binary .mul ⟨0⟩ ⟨0⟩),
    .nop,
    .assign (.var ⟨0⟩) (.binary .div ⟨1⟩ ⟨2⟩),
    .ret (some ⟨1⟩)]
  params_known := by simp

def squareGraph : Graph := Graph.link square (square.stmts.map (Graph.plainEdges square))

theorem straightLine_square :
    Graph.build square = .ok squareGraph ∧ StraightLine square ∧
    (solveWithin squareGraph 6).outcome = .converged ∧ (solveWithin squareGraph 6).visits = 6 ∧
    ∃ before, (solveWithin squareGraph 6).facts.in? 3 = some before ∧
      before.get ⟨0⟩ = .constant 6 ∧ before.get ⟨1⟩ = .constant 36 ∧
      before.get ⟨2⟩ = .undefined := by
  have hb : Graph.build square = .ok squareGraph := rfl
  have h : StraightLine square := ⟨rfl, by decide, by decide⟩
  have h₀ : Run squareGraph ⟨5, .uniform square 0⟩ [] ⟨5, .uniform square 0⟩ := .start
  have h₁ := h₀.step (.mk (e := ⟨5, 0, .entry⟩) rfl (by decide) rfl rfl (by decide) trivial)
  have h₂ := h₁.step (.mk (e := ⟨0, 1, .fallThrough⟩) rfl (by decide) ⟨_, rfl, rfl⟩ rfl
    (by decide) trivial)
  have h₃ := h₂.step (.mk (e := ⟨1, 2, .fallThrough⟩) rfl (by decide)
    ⟨_, ⟨_, _, rfl, rfl, rfl⟩, rfl⟩ rfl (by decide) trivial)
  have h₄ := h₃.step (.mk (e := ⟨2, 3, .fallThrough⟩) rfl (by decide) rfl rfl (by decide) trivial)
  obtain ⟨hconverged, hvisits, hexact⟩ := (straightLine_exact hb h).2.1 6 (by decide)
  obtain ⟨before, hin, hmirrors⟩ := hexact _ (Store.initial_uniform square 0) _ _ h₄ (by decide)
  exact ⟨hb, h, hconverged, hvisits, before, hin, hmirrors.held ⟨0⟩ 6 (by decide),
    hmirrors.held ⟨1⟩ 36 (by decide), hmirrors.unassigned ⟨2⟩ (by decide)⟩

end Constants

end FlowFacts
