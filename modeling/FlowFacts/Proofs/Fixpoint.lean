import FlowFacts.Proofs.Constants
import FlowFacts.Proofs.Liveness

/-! # The equations that a converged table solves

Whatever the transfer does, a converged table is a post-fixpoint. When the transfer is monotone,
it is the least solution of the equations of the analysis: a fact that was met in early and has
been overwritten since is below the fact that overwrote it, so nothing stale is left.
-/

namespace FlowFacts

/-- The table has these facts at its nodes, those that reach a node and those that leave it. -/
def FactTable.Holds {F : Type} (t : FactTable F) (d : Direction) (n : Nat)
    (reached left : Nat → F) : Prop :=
  ∀ node, node < n →
    t.reaching? d node = some (reached node) ∧ t.leaving? d node = some (left node)

namespace Solver

variable {F : Type} [SemilatticeSup F]

/-! ## The equations -/

structure PostFixpoint (a : Analysis F) (g : Graph) (flow : Stmt → F → F)
    (reached left : Nat → F) : Prop where
  boundary : left (g.boundary a.direction) = a.boundary
  output : ∀ node s, g.stmt? node = some s → node ≠ g.boundary a.direction →
    left node = flow s (reached node)
  input : ∀ m node, g.Feeds a.direction m node → left m ≤ reached node

/-- The equations of an analysis, or its inequations, with `rel` between what is asked for and
what a table has. -/
structure Equations (rel : F → F → Prop) (a : Analysis F) (g : Graph) (flow : Stmt → F → F)
    (reached left : Nat → F) : Prop where
  boundary : rel a.boundary (left (g.boundary a.direction))
  initial : rel a.initial (reached (g.boundary a.direction))
  input : ∀ node feeders, node < g.size → node ≠ g.boundary a.direction →
    g.feeders? a.direction node = some feeders → rel (joinAll left a.initial feeders) (reached node)
  output : ∀ node s, g.stmt? node = some s → node ≠ g.boundary a.direction →
    rel (flow s (reached node)) (left node)

section

variable {a : Analysis F} {p : Procedure} {g : Graph} {flow : Stmt → F → F}
  {R L : Nat → F}

theorem Equations.join_le (hb : Graph.build p = .ok g) (h : Equations (· ≤ ·) a g flow R L)
    {node : Nat} (hlt : node < g.size) :
    a.initial ≤ R node ∧ ∀ m, g.Feeds a.direction m node → L m ≤ R node := by
  obtain ⟨feeders, hfeeders, hmem⟩ := Graph.feeders_of_lt hb a.direction hlt
  by_cases hn : node = g.boundary a.direction
  · subst hn
    exact ⟨h.initial, fun m hm => absurd rfl (hm.bounds hb).2.2⟩
  · obtain ⟨hinitial, hle⟩ := joinAll_le_iff.mp (h.input node feeders hlt hn hfeeders)
    exact ⟨hinitial, fun m hm => hle m ((hmem m).mpr hm)⟩

/-! ## Converged states -/

theorem Reached.holds (hb : Graph.build p = .ok g) (law : Lawful a g flow) {s : State F}
    (h : Reached a g s) : s.facts.Holds a.direction g.size (s.reached a) (s.left a) := by
  have hsized := (h.tidy hb law).sized
  intro node hlt
  exact ⟨reaching_eq_reached hsized hlt, leaving_eq_left hsized hlt⟩

theorem Reached.postFixpoint (hb : Graph.build p = .ok g) (law : Lawful a g flow) {s : State F}
    (h : Reached a g s) (hdone : s.pending.toList = []) :
    PostFixpoint a g flow (s.reached a) (s.left a) := by
  have hcons := h.consistent hb law
  have hsettled : ∀ m, m < g.size → m ≠ g.boundary a.direction → Settled a g flow s m :=
    fun m hm hne => hcons.settled m hm hne (by simp [hdone])
  refine ⟨hcons.boundary, ?_, ?_⟩
  · intro node stmt hstmt hne
    exact (hsettled node (Graph.lt_of_stmt? hb hstmt) hne).output stmt hstmt
  · intro m node hfeeds
    have hbounds := hfeeds.bounds hb
    exact (hsettled node hbounds.2.1 hbounds.2.2).input m hfeeds

theorem converged_facts (hb : Graph.build p = .ok g) (law : Lawful a g flow) {cap : Nat}
    (hc : (solve a g cap).outcome = .converged) :
    ∃ s, Reached a g s ∧ PostFixpoint a g flow (s.reached a) (s.left a) ∧
      (solve a g cap).facts.Holds a.direction g.size (s.reached a) (s.left a) := by
  obtain ⟨s, hr, hfacts, hdone⟩ := converged_spec hb law hc
  rw [hfacts]
  exact ⟨s, hr, hr.postFixpoint hb law hdone, hr.holds hb law⟩

/-! ## Monotone transfers -/

theorem Reached.initial_le (hb : Graph.build p = .ok g) (law : Lawful a g flow) {s : State F}
    (h : Reached a g s) (node : Nat) : a.initial ≤ s.reached a node := by
  refine (h.facts_have (P := fun _ x => a.initial ≤ x) (Q := fun _ _ => True) hb law
    ?_ trivial ?_ ?_ node).1
  · exact fun m => ⟨le_rfl, trivial⟩
  · exact fun m k x y _ hx _ => hx.trans le_sup_left
  · exact fun m stmt x _ _ _ => trivial

theorem Reached.reached_le (hb : Graph.build p = .ok g) (law : Lawful a g flow)
    (hmono : ∀ node s, g.stmt? node = some s → Monotone (flow s))
    (hR : Equations (· ≤ ·) a g flow R L) {s : State F} (h : Reached a g s) {node : Nat}
    (hlt : node < g.size) : s.reached a node ≤ R node := by
  -- An output that no visit has written is the initial fact. That need not be below `L`.
  refine (h.facts_have (P := fun m x => m < g.size → x ≤ R m)
    (Q := fun m x => x = a.initial ∨ x ≤ L m) hb law ?_ ?_ ?_ ?_ node).1 hlt
  · exact fun m => ⟨fun hm => (hR.join_le hb hm).1, Or.inl rfl⟩
  · exact Or.inr hR.boundary
  · intro m k x y hfeeds hx hy hm
    obtain ⟨hinitial, hfed⟩ := hR.join_le hb hm
    apply sup_le (hx hm)
    rcases hy with rfl | hy
    · exact hinitial
    · exact hy.trans (hfed k hfeeds)
  · intro m stmt x hne hstmt hx
    right
    calc flow stmt x ≤ flow stmt (R m) := hmono m stmt hstmt (hx (Graph.lt_of_stmt? hb hstmt))
      _ ≤ L m := hR.output m stmt hstmt hne

theorem PostFixpoint.rejoined (hb : Graph.build p = .ok g)
    (hmono : ∀ node s, g.stmt? node = some s → Monotone (flow s)) {reached left : Nat → F}
    (h : PostFixpoint a g flow reached left) (hinitial : ∀ node, a.initial ≤ reached node) :
    Equations (· ≤ ·) a g flow
      (fun node => joinAll left a.initial ((g.feeders? a.direction node).getD [])) left := by
  refine ⟨h.boundary.ge, (joinAll_le_iff.mp le_rfl).1, ?_, ?_⟩
  · intro node feeders _ _ hfeeders
    simp only [hfeeders, Option.getD_some, le_refl]
  · intro node s hs hne
    rw [h.output node s hs hne]
    apply hmono node s hs
    have hlt := Graph.lt_of_stmt? hb hs
    obtain ⟨feeders, hfeeders, hmem⟩ := Graph.feeders_of_lt hb a.direction hlt
    rw [hfeeders, Option.getD_some, joinAll_le_iff]
    exact ⟨hinitial node, fun m hm => h.input m node ((hmem m).mp hm)⟩

theorem Reached.equations (hb : Graph.build p = .ok g) (law : Lawful a g flow)
    (hmono : ∀ node s, g.stmt? node = some s → Monotone (flow s)) {s : State F}
    (h : Reached a g s) (hpost : PostFixpoint a g flow (s.reached a) (s.left a)) :
    Equations (· = ·) a g flow (s.reached a) (s.left a) := by
  have hinitial := h.initial_le hb law
  -- The table is below its own outputs joined anew, so its inputs hold nothing else.
  have hle : ∀ node feeders, node < g.size → g.feeders? a.direction node = some feeders →
      s.reached a node ≤ joinAll (s.left a) a.initial feeders := by
    intro node feeders hlt hfeeders
    simpa [hfeeders] using h.reached_le hb law hmono (hpost.rejoined hb hmono hinitial) hlt
  refine ⟨hpost.boundary.symm, ?_, ?_, ?_⟩
  · have hlt := Graph.boundary_lt hb a.direction
    obtain ⟨feeders, hfeeders, hmem⟩ := Graph.feeders_of_lt hb a.direction hlt
    apply le_antisymm (hinitial _)
    apply (hle _ feeders hlt hfeeders).trans
    rw [joinAll_le_iff]
    exact ⟨le_rfl, fun m hm => absurd rfl (((hmem m).mp hm).bounds hb).2.2⟩
  · intro node feeders hlt hne hfeeders
    apply le_antisymm _ (hle node feeders hlt hfeeders)
    rw [joinAll_le_iff]
    refine ⟨hinitial node, fun m hm => hpost.input m node ?_⟩
    exact (Graph.mem_feeders_iff hb hlt hfeeders).mp hm
  · exact fun node stmt hstmt hne => (hpost.output node stmt hstmt hne).symm

theorem PostFixpoint.left_le (hmono : ∀ node s, g.stmt? node = some s → Monotone (flow s))
    {reached left : Nat → F} (h : PostFixpoint a g flow reached left)
    (hR : Equations (· ≤ ·) a g flow R L) {node : Nat} {s : Stmt} (hs : g.stmt? node = some s)
    (hle : reached node ≤ R node) : left node ≤ L node := by
  by_cases hn : node = g.boundary a.direction
  · rw [hn, h.boundary]
    exact hR.boundary
  · rw [h.output node s hs hn]
    exact (hmono node s hs hle).trans (hR.output node s hs hn)

/-- A converged run of a monotone analysis gives the least solution of its equations. -/
theorem converged_isLeast (hb : Graph.build p = .ok g) (law : Lawful a g flow)
    (hmono : ∀ node s, g.stmt? node = some s → Monotone (flow s)) {cap : Nat}
    (hc : (solve a g cap).outcome = .converged) :
    ∃ reached left, (solve a g cap).facts.Holds a.direction g.size reached left ∧
      Equations (· = ·) a g flow reached left ∧
      ∀ R L, Equations (· ≤ ·) a g flow R L →
        ∀ node, node < g.size → reached node ≤ R node ∧ left node ≤ L node := by
  obtain ⟨s, hr, hpost, hholds⟩ := converged_facts hb law hc
  refine ⟨_, _, hholds, hr.equations hb law hmono hpost, ?_⟩
  intro R L hR node hlt
  obtain ⟨stmt, hstmt⟩ := Graph.stmt?_of_lt hb hlt
  have hle := hr.reached_le hb law hmono hR hlt
  exact ⟨hle, hpost.left_le hmono hR hstmt hle⟩

/-- A switch with two cases of one target, a loop of one statement, and a statement that nothing
leads to. -/
def tangle : Procedure where
  vars := #[⟨"x", .int⟩, ⟨"y", .int⟩]
  params := [⟨0⟩]
  body := #[
    .switch ⟨0⟩ [(1, 2), (2, 2)] 1,
    .goto 1,
    .ret (some ⟨0⟩),
    .assign (.var ⟨1⟩) (.var ⟨0⟩)]
  params_known := by decide

theorem live_of_tangle_isLeast : ∃ g, Graph.build tangle = .ok g ∧
    (solve Liveness.analysis g 100).outcome = .converged ∧
    ∃ after before, (solve Liveness.analysis g 100).facts.Holds .backward g.size after before ∧
      Equations (· = ·) Liveness.analysis g Liveness.before after before ∧
      ∀ R L, Equations (· ≤ ·) Liveness.analysis g Liveness.before R L →
        ∀ node, node < g.size → after node ≤ R node ∧ before node ≤ L node := by
  have hb : Graph.build tangle =
      .ok (Graph.link tangle (tangle.stmts.map (Graph.plainEdges tangle))) := rfl
  have hc : (solve Liveness.analysis
      (Graph.link tangle (tangle.stmts.map (Graph.plainEdges tangle))) 100).outcome =
        .converged := by decide +kernel
  exact ⟨_, hb, hc, converged_isLeast hb (Liveness.lawful _)
    (fun _ s _ => Liveness.before_mono s) hc⟩

/-- A converged run gives a post-fixpoint, whether or not the transfer is monotone. -/
theorem converged_postFixpoint (hb : Graph.build p = .ok g) :
    (∀ (F : Type) [SemilatticeSup F] (a : Analysis F) (flow : Stmt → F → F), Lawful a g flow →
      ∀ cap, (solve a g cap).outcome = .converged →
        ∃ reached left, (solve a g cap).facts.Holds a.direction g.size reached left ∧
          PostFixpoint a g flow reached left) ∧
    ∀ cap, (Constants.solveWithin g cap).outcome = .converged →
      ∃ before after, (Constants.solveWithin g cap).facts.Holds .forward g.size before after ∧
        PostFixpoint (Constants.analysis p) g (Constants.flow p) before after := by
  constructor
  · intro F _ a flow law cap hc
    obtain ⟨s, -, hpost, hholds⟩ := converged_facts hb law hc
    exact ⟨_, _, hholds, hpost⟩
  · intro cap hc
    rw [Constants.solveWithin, Graph.procedure_of_build hb] at hc ⊢
    obtain ⟨s, -, hpost, hholds⟩ := converged_facts hb (Constants.lawful hb) hc
    exact ⟨_, _, hholds, hpost⟩

/-- Divides by a variable that nothing has assigned on the first turn and that is zero on every
later one. The quotient is first no constant and then unknown. -/
def divideLate : Procedure where
  vars := #[⟨"x", .int⟩, ⟨"y", .int⟩, ⟨"z", .int⟩]
  params := [⟨0⟩]
  body := #[
    .assign (.var ⟨2⟩) (.binary .div ⟨0⟩ ⟨1⟩),
    .assign (.var ⟨1⟩) (.literal 0),
    .branch (.binary .eq ⟨0⟩ ⟨1⟩) 0,
    .ret (some ⟨2⟩)]
  params_known := by decide

def divideLateGraph : Graph :=
  Graph.link divideLate (divideLate.stmts.map (Graph.plainEdges divideLate))

theorem constants_of_divideLate_postFixpoint :
    Graph.build divideLate = .ok divideLateGraph ∧
    Lawful (Constants.analysis divideLate) divideLateGraph (Constants.flow divideLate) ∧
    (solve (Constants.analysis divideLate) divideLateGraph 100).outcome = .converged ∧
    ∃ before after,
      PostFixpoint (Constants.analysis divideLate) divideLateGraph (Constants.flow divideLate)
        before after ∧
      (before 1).get ⟨2⟩ = .nac ∧ (after 0).get ⟨2⟩ = .undefined := by
  have hb : Graph.build divideLate = .ok divideLateGraph := rfl
  have law := Constants.lawful hb
  have hc : (solve (Constants.analysis divideLate) divideLateGraph 100).outcome = .converged := by
    decide +kernel
  have hin : ((solve (Constants.analysis divideLate) divideLateGraph 100).facts.in? 1).map
      (·.get ⟨2⟩) = some .nac := by decide +kernel
  have hout : ((solve (Constants.analysis divideLate) divideLateGraph 100).facts.out? 0).map
      (·.get ⟨2⟩) = some .undefined := by decide +kernel
  obtain ⟨before, after, hholds, hpost⟩ :=
    (converged_postFixpoint hb).1 ConstFact _ _ law 100 hc
  refine ⟨hb, law, hc, before, after, hpost, ?_, ?_⟩
  · have h : FactTable.in? _ 1 = some (before 1) := (hholds 1 (by decide)).1
    rw [h] at hin
    exact Option.some.inj hin
  · have h : FactTable.out? _ 0 = some (after 0) := (hholds 0 (by decide)).2
    rw [h] at hout
    exact Option.some.inj hout

end

end Solver

end FlowFacts
