import FlowFacts.Solver

/-! # Two runs in step

Two analyses on two graphs with the same edges run in step when boundaries, meets and transfers
keep a relation between their facts: they visit the same nodes in the same order, end in the same
way, and have related facts at every place.
-/

namespace FlowFacts

theorem rel_cases {α β : Type} {r : α → β → Prop} {x : Option α} {y : Option β}
    (h : Option.Rel r x y) : x = none ∧ y = none ∨ ∃ a b, x = some a ∧ y = some b ∧ r a b := by
  cases h with
  | none => exact Or.inl ⟨rfl, rfl⟩
  | some hab => exact Or.inr ⟨_, _, rfl, rfl, hab⟩

theorem rel_bind {α β γ δ : Type} {r : α → β → Prop} {q : γ → δ → Prop} {x : Option α}
    {y : Option β} {f : α → Option γ} {k : β → Option δ} (hxy : Option.Rel r x y)
    (hfk : ∀ a b, r a b → Option.Rel q (f a) (k b)) : Option.Rel q (x >>= f) (y >>= k) := by
  cases hxy with
  | some hab => exact hfk _ _ hab
  | none => exact .none

theorem rel_self {α : Type} (x : Option α) : Option.Rel Eq x x := by
  cases x with
  | none => exact .none
  | some a => exact .some rfl

/-! ## Tables -/

namespace FactTable

variable {F G : Type} {rel : F → G → Prop}

structure Related (rel : F → G → Prop) (t : FactTable F) (u : FactTable G) : Prop where
  ins : ∀ node, Option.Rel rel (t.in? node) (u.in? node)
  outs : ∀ node, Option.Rel rel (t.out? node) (u.out? node)

theorem rel_getElem?_set {x : F} {y : G} (hxy : rel x y) {as : Array F} {bs : Array G}
    (h : ∀ i : Nat, Option.Rel rel as[i]? bs[i]?) (node : Nat) (ha : node < as.size)
    (hb : node < bs.size) (i : Nat) :
    Option.Rel rel (as.set node x ha)[i]? (bs.set node y hb)[i]? := by
  rw [Array.getElem?_set, Array.getElem?_set]
  split
  · exact .some hxy
  · exact h i

theorem lt_size_iff {as : Array F} {bs : Array G} {node : Nat}
    (h : Option.Rel rel as[node]? bs[node]?) : node < as.size ↔ node < bs.size := by
  rcases rel_cases h with ⟨ha, hb⟩ | ⟨x, y, ha, hb, -⟩
  · have := Array.getElem?_eq_none_iff.mp ha
    have := Array.getElem?_eq_none_iff.mp hb
    omega
  · have := (Array.getElem?_eq_some_iff.mp ha).1
    have := (Array.getElem?_eq_some_iff.mp hb).1
    omega

theorem related_filled {x : F} {y : G} (h : rel x y) (n : Nat) :
    (filled n x).Related rel (filled n y) := by
  constructor
  all_goals
    intro node
    simp only [in?, out?, filled, Array.getElem?_replicate]
    split
    · exact .some h
    · exact .none

namespace Related

variable {t : FactTable F} {u : FactTable G}

theorem setIn (h : t.Related rel u) (node : Nat) {x : F} {y : G} (hxy : rel x y) :
    Option.Rel (Related rel) (t.setIn? node x) (u.setIn? node y) := by
  have hlt := lt_size_iff (h.ins node)
  unfold setIn?
  by_cases ht : node < t.ins.size
  · rw [dif_pos ht, dif_pos (hlt.mp ht)]
    exact .some ⟨rel_getElem?_set hxy h.ins node ht (hlt.mp ht), h.outs⟩
  · rw [dif_neg ht, dif_neg (mt hlt.mpr ht)]
    exact .none

theorem setOut (h : t.Related rel u) (node : Nat) {x : F} {y : G} (hxy : rel x y) :
    Option.Rel (Related rel) (t.setOut? node x) (u.setOut? node y) := by
  have hlt := lt_size_iff (h.outs node)
  unfold setOut?
  by_cases ht : node < t.outs.size
  · rw [dif_pos ht, dif_pos (hlt.mp ht)]
    exact .some ⟨h.ins, rel_getElem?_set hxy h.outs node ht (hlt.mp ht)⟩
  · rw [dif_neg ht, dif_neg (mt hlt.mpr ht)]
    exact .none

theorem reaching (h : t.Related rel u) (d : Direction) (node : Nat) :
    Option.Rel rel (t.reaching? d node) (u.reaching? d node) := by
  cases d
  · exact h.ins node
  · exact h.outs node

theorem leaving (h : t.Related rel u) (d : Direction) (node : Nat) :
    Option.Rel rel (t.leaving? d node) (u.leaving? d node) := by
  cases d
  · exact h.outs node
  · exact h.ins node

theorem setReaching (h : t.Related rel u) (d : Direction) (node : Nat) {x : F} {y : G}
    (hxy : rel x y) :
    Option.Rel (Related rel) (t.setReaching? d node x) (u.setReaching? d node y) := by
  cases d
  · exact h.setIn node hxy
  · exact h.setOut node hxy

theorem setLeaving (h : t.Related rel u) (d : Direction) (node : Nat) {x : F} {y : G}
    (hxy : rel x y) :
    Option.Rel (Related rel) (t.setLeaving? d node x) (u.setLeaving? d node y) := by
  cases d
  · exact h.setOut node hxy
  · exact h.setIn node hxy

end Related

end FactTable

/-! ## Graphs -/

structure Graph.SameEdges (g h : Graph) : Prop where
  length : h.procedure.size = g.procedure.size
  outs : h.outTable = g.outTable
  ins : h.inTable = g.inTable

namespace Graph.SameEdges

variable {g h : Graph}

theorem size (e : SameEdges g h) : h.size = g.size := by
  rw [Graph.size, Graph.size, e.outs]

theorem boundary (e : SameEdges g h) (d : Direction) : h.boundary d = g.boundary d := by
  cases d <;> simp only [Graph.boundary, entry, exit, e.length]

theorem feeders (e : SameEdges g h) (d : Direction) (node : Nat) :
    h.feeders? d node = g.feeders? d node := by
  cases d <;> simp only [feeders?, preds?, succs?, inEdges?, outEdges?, e.ins, e.outs]

theorem readers (e : SameEdges g h) (d : Direction) (node : Nat) :
    h.readers? d node = g.readers? d node := by
  cases d <;> simp only [readers?, preds?, succs?, inEdges?, outEdges?, e.ins, e.outs]

theorem firstVisits (e : SameEdges g h) (d : Direction) : h.firstVisits d = g.firstVisits d := by
  have hnodes : h.nodes = g.nodes := by rw [nodes, nodes, e.size]
  have hentry : h.entry = g.entry := e.boundary .forward
  have hexit : h.exit = g.exit := e.boundary .backward
  cases d
  · rw [Graph.firstVisits, Graph.firstVisits, hnodes, hentry]
  · rw [Graph.firstVisits, Graph.firstVisits, hnodes, hexit]

end Graph.SameEdges

/-! ## Runs -/

namespace Solver

variable {F G : Type} {rel : F → G → Prop} {a : Analysis F} {b : Analysis G} {g h : Graph}

/-- The outcomes of two transfers: related facts with the same flag. -/
def RelatedChange (rel : F → G → Prop) (x : F × Bool) (y : G × Bool) : Prop :=
  rel x.1 y.1 ∧ x.2 = y.2

/-- The parts of the two analyses keep the relation. -/
structure InStep (rel : F → G → Prop) (a : Analysis F) (g : Graph) (b : Analysis G)
    (h : Graph) : Prop where
  edges : g.SameEdges h
  direction : b.direction = a.direction
  boundary : rel a.boundary b.boundary
  initial : rel a.initial b.initial
  meets : ∀ x y x' y', rel x y → rel x' y' → rel (a.meetInto x x').1 (b.meetInto y y').1
  transfers : ∀ node, Option.Rel
    (fun s t => ∀ x y x' y', rel x y → rel x' y' →
      Option.Rel (RelatedChange rel) (a.transfer s x x') (b.transfer t y y'))
    (g.stmt? node) (h.stmt? node)

structure State.Related (rel : F → G → Prop) (s : State F) (t : State G) : Prop where
  facts : s.facts.Related rel t.facts
  pending : s.pending = t.pending
  visits : s.visits = t.visits

structure Solution.Related (rel : F → G → Prop) (s : Solution F) (t : Solution G) : Prop where
  facts : s.facts.Related rel t.facts
  visits : s.visits = t.visits
  outcome : s.outcome = t.outcome

namespace InStep

theorem gather (i : InStep rel a g b h) {t : FactTable F} {u : FactTable G}
    (htu : t.Related rel u) (feeders : List Nat) {x : F} {y : G} (hxy : rel x y) :
    Option.Rel rel (gather a t feeders x) (gather b u feeders y) := by
  induction feeders generalizing x y with
  | nil => exact .some hxy
  | cons m feeders ih =>
    simp only [Solver.gather, i.direction] at ih ⊢
    rw [List.foldlM_cons, List.foldlM_cons]
    apply rel_bind (r := rel)
    · rcases rel_cases (htu.leaving a.direction m) with ⟨ht, hu⟩ | ⟨fact, fact', ht, hu, hfact⟩
      · rw [ht, hu]
        exact .none
      · rw [ht, hu]
        exact .some (i.meets _ _ _ _ hfact hxy)
    · exact fun x y hxy => ih hxy

theorem visit (i : InStep rel a g b h) (node : Nat) {s : State F} {t : State G}
    (hst : s.Related rel t) :
    Option.Rel (State.Related rel) (visit a g node s) (visit b h node t) := by
  unfold Solver.visit
  rw [i.direction]
  -- Both sides look up the same places in the same order. One look-up after another is peeled off.
  apply rel_bind (i.transfers node)
  intro stmt stmt' htransfer
  rw [i.edges.feeders]
  apply rel_bind (rel_self _)
  rintro feeders _ rfl
  apply rel_bind (hst.facts.reaching a.direction node)
  intro reached reached' hreached
  apply rel_bind (i.gather hst.facts feeders hreached)
  intro input input' hinput
  apply rel_bind (hst.facts.leaving a.direction node)
  intro output output' houtput
  apply rel_bind (htransfer _ _ _ _ hinput houtput)
  rintro ⟨left, changed⟩ ⟨left', _⟩ ⟨hleft, rfl⟩
  apply rel_bind (hst.facts.setReaching a.direction node hinput)
  intro facts facts' hfacts
  apply rel_bind (hfacts.setLeaving a.direction node hleft)
  intro facts facts' hfacts
  rw [i.edges.readers, hst.pending, hst.visits]
  cases changed with
  | true =>
    apply rel_bind (rel_self _)
    rintro readers _ rfl
    exact .some ⟨hfacts, rfl, rfl⟩
  | false => exact .some ⟨hfacts, rfl, rfl⟩

theorem start (i : InStep rel a g b h) :
    Option.Rel (State.Related rel) (start a g) (start b h) := by
  unfold Solver.start
  rw [i.direction, i.edges.size, i.edges.boundary, i.edges.firstVisits]
  apply rel_bind ((FactTable.related_filled i.initial g.size).setLeaving _ _ i.boundary)
  intro facts facts' hfacts
  exact .some ⟨hfacts, rfl, rfl⟩

theorem stuck (i : InStep rel a g b h) (visits : Nat) (told told' : List Event) :
    (stuck a g visits told).Related rel (stuck b h visits told') := by
  refine ⟨?_, rfl, rfl⟩
  unfold Solver.stuck
  rw [i.edges.size]
  exact FactTable.related_filled i.initial g.size

theorem run (i : InStep rel a g b h) (cap : Nat) {s : State F} {t : State G}
    (hst : s.Related rel t) : (run a g cap s).Related rel (run b h cap t) := by
  induction cap generalizing s t with
  | zero =>
    unfold Solver.run
    rw [hst.pending]
    exact ⟨hst.facts, hst.visits, rfl⟩
  | succ cap ih =>
    unfold Solver.run
    rw [hst.pending, hst.visits]
    cases hpop : t.pending.pop? with
    | none => exact ⟨hst.facts, hst.visits, rfl⟩
    | some next =>
      obtain ⟨node, pending⟩ := next
      have hvisit := i.visit node (s := { s with pending }) (t := { t with pending })
        ⟨hst.facts, rfl, hst.visits⟩
      rw [hst.visits] at hvisit
      rcases rel_cases hvisit with ⟨hs, ht⟩ | ⟨s', t', hs, ht, hnext⟩
      · simp only [hs, ht]
        exact i.stuck _ _ _
      · simp only [hs, ht]
        exact ih hnext

theorem solve (i : InStep rel a g b h) (cap : Nat) :
    (solve a g cap).Related rel (solve b h cap) := by
  unfold Solver.solve
  rcases rel_cases i.start with ⟨hs, ht⟩ | ⟨s, t, hs, ht, hst⟩
  · rw [hs, ht]
    exact i.stuck _ _ _
  · rw [hs, ht]
    exact i.run cap hst

end InStep

end Solver

end FlowFacts
