import FlowFacts.Proofs.Convergence
import Mathlib.Logic.Function.Iterate

/-! # Facts rise from visit to visit

The facts that reach a node never move down. In constant propagation neither do those that leave
it, with one exception: a quotient falls from `nac` to `undefined` on the visit that finds the
divisor to be zero. A divisor is found to be zero only once, so a quotient falls at most once.
-/

namespace FlowFacts

namespace Solver

variable {F : Type}

/-! ## From visit to visit -/

/-- The state after the next visit. When nothing waits, it stays as it is. -/
def proceed (a : Analysis F) (g : Graph) (s : State F) : State F := (turn a g s).getD s

section

variable [SemilatticeSup F] {a : Analysis F} {p : Procedure} {g : Graph} {flow : Stmt → F → F}

theorem proceed_cases (hb : Graph.build p = .ok g) (law : Lawful a g flow) {s : State F}
    (h : Reached a g s) :
    s.pending.pop? = none ∧ proceed a g s = s ∨
      ∃ node pending, s.pending.pop? = some (node, pending) ∧ node ≠ g.boundary a.direction ∧
        visit a g node { s with pending } = some (proceed a g s) ∧
        Visited a g flow node { s with pending } (proceed a g s) := by
  unfold proceed turn
  cases hpop : s.pending.pop? with
  | none => exact Or.inl ⟨rfl, rfl⟩
  | some next =>
    obtain ⟨node, pending⟩ := next
    have htidy := h.tidy hb law
    obtain ⟨s', hvisit, hv⟩ := htidy.visit_spec hb law hpop
    have hne := (htidy.inside node (Worklist.mem_of_pop? hpop)).2
    refine Or.inr ⟨node, pending, rfl, hne, ?_, ?_⟩
    · simp [hvisit]
    · simpa [hvisit] using hv

theorem Reached.proceed (hb : Graph.build p = .ok g) (law : Lawful a g flow) {s : State F}
    (h : Reached a g s) : Reached a g (proceed a g s) := by
  rcases proceed_cases hb law h with ⟨-, he⟩ | ⟨node, pending, hpop, -, hvisit, -⟩
  · rw [he]
    exact h
  · exact h.visit hpop hvisit

theorem Reached.iterate (hb : Graph.build p = .ok g) (law : Lawful a g flow) {s : State F}
    (h : Reached a g s) (k : Nat) : Reached a g ((Solver.proceed a g)^[k] s) := by
  induction k with
  | zero => exact h
  | succ k ih =>
    rw [Function.iterate_succ_apply']
    exact ih.proceed hb law

theorem run_facts (hb : Graph.build p = .ok g) (law : Lawful a g flow) (cap : Nat) {s : State F}
    (h : Reached a g s) : (run a g cap s).facts = ((proceed a g)^[cap] s).facts := by
  induction cap generalizing s with
  | zero => rfl
  | succ cap ih =>
    rw [Function.iterate_succ_apply, run]
    rcases proceed_cases hb law h with ⟨hpop, he⟩ | ⟨node, pending, hpop, -, hvisit, -⟩
    · rw [hpop, he, Function.iterate_fixed he]
      rfl
    · simp only [hpop, hvisit]
      exact ih (h.visit hpop hvisit)

theorem reached_le_proceed (hb : Graph.build p = .ok g) (law : Lawful a g flow) {s : State F}
    (h : Reached a g s) (node : Nat) : s.reached a node ≤ (proceed a g s).reached a node := by
  rcases proceed_cases hb law h with ⟨-, he⟩ | ⟨m, pending, -, -, -, hv⟩
  · rw [he]
  · by_cases hm : node = m
    · rw [hm]
      exact hv.reached_le
    · exact (hv.reached_other node hm).ge

theorem Reached.left_cases (hb : Graph.build p = .ok g) (law : Lawful a g flow) {s : State F}
    (h : Reached a g s) {node : Nat} {stmt : Stmt} (hstmt : g.stmt? node = some stmt)
    (hne : node ≠ g.boundary a.direction) :
    s.left a node = a.initial ∨ s.left a node = flow stmt (s.reached a node) := by
  refine (h.induct (P := fun s => s.left a node = a.initial ∨
    s.left a node = flow stmt (s.reached a node)) hb law ?_ ?_).2
  · intro s _ _ hs
    rw [hs.left, if_neg hne]
    exact Or.inl rfl
  · intro s s' m pending _ hP _ hv _
    by_cases hm : node = m
    · subst hm
      exact Or.inr (hv.output stmt hstmt)
    · rw [hv.left_other node hm, hv.reached_other node hm]
      exact hP

theorem left_proceed_cases (hb : Graph.build p = .ok g) (law : Lawful a g flow) {s : State F}
    (h : Reached a g s) {node : Nat} {stmt : Stmt} (hstmt : g.stmt? node = some stmt) :
    (proceed a g s).left a node = s.left a node ∨ s.left a node = a.initial ∨
      s.left a node = flow stmt (s.reached a node) ∧
        (proceed a g s).left a node = flow stmt ((proceed a g s).reached a node) := by
  rcases proceed_cases hb law h with ⟨-, he⟩ | ⟨m, pending, -, hne, -, hv⟩
  · rw [he]
    exact Or.inl rfl
  · by_cases hm : node = m
    · subst hm
      rcases h.left_cases hb law hstmt hne with hinitial | hflow
      · exact Or.inr (Or.inl hinitial)
      · exact Or.inr (Or.inr ⟨hflow, hv.output stmt hstmt⟩)
    · exact Or.inl (hv.left_other node hm)

/-- The states of a run that is never cut off. After the last visit they stay the same. -/
structure Trail (a : Analysis F) (g : Graph) (state : Nat → State F) : Prop where
  reached : ∀ k, Reached a g (state k)
  next : ∀ k, state (k + 1) = proceed a g (state k)

/-- Every cap shows a state of one and the same trail. -/
theorem exists_trail (hb : Graph.build p = .ok g) (law : Lawful a g flow) :
    ∃ state, Trail a g state ∧ ∀ k, (solve a g k).facts = (state k).facts := by
  obtain ⟨s, hs, -⟩ := start_spec hb a
  refine ⟨fun k => (proceed a g)^[k] s, ⟨(Reached.start hs).iterate hb law, ?_⟩, ?_⟩
  · intro k
    exact Function.iterate_succ_apply' _ _ _
  · intro k
    rw [solve, hs]
    exact run_facts hb law k (.start hs)

theorem Trail.reached_mono (hb : Graph.build p = .ok g) (law : Lawful a g flow)
    {state : Nat → State F} (h : Trail a g state) (node : Nat) :
    Monotone fun k => (state k).reached a node := by
  apply monotone_nat_of_le_succ
  intro k
  rw [h.next]
  exact reached_le_proceed hb law (h.reached k) node

end

end Solver

namespace Constants

/-! ## Evaluation -/

theorem le_cases {x y : Value} (h : x.le y = true) : x = .undefined ∨ x = y ∨ y = .nac := by
  cases x <;> cases y <;> simp_all [Value.le]

theorem combine_zero {op : Operator} (hdiv : op.divides = true) (x : Value) :
    combine op x (.constant 0) = .undefined := by
  unfold combine
  rw [if_pos ⟨hdiv, rfl⟩]

theorem combine_nac_left {op : Operator} {y : Value}
    (h : ¬ (op.divides = true ∧ y = .constant 0)) : combine op .nac y = .nac := by
  unfold combine
  rw [if_neg h]

theorem combine_nac_right (op : Operator) (x : Value) : combine op x .nac = .nac := by
  cases x <;> simp [combine]

theorem combine_undefined_left (op : Operator) {y : Value} (h : y ≠ .nac) :
    combine op .undefined y = .undefined := by
  cases y <;> simp_all [combine]

theorem combine_undefined_right (op : Operator) {x : Value} (h : x ≠ .nac) :
    combine op x .undefined = .undefined := by
  cases x <;> simp_all [combine]

theorem combine_le_or (op : Operator) {x y x' y' : Value} (hx : x.le x' = true)
    (hy : y.le y' = true) :
    (combine op x y).le (combine op x' y') = true ∨
      op.divides = true ∧ x = .nac ∧ y = .undefined ∧ y' = .constant 0 ∧
        combine op x y = .nac ∧ combine op x' y' = .undefined := by
  by_cases hzero : op.divides = true ∧ y' = .constant 0
  · obtain ⟨hdiv, rfl⟩ := hzero
    rw [combine_zero hdiv]
    rcases le_cases hy with rfl | rfl | hnac
    · by_cases hxn : x = .nac
      · -- The one way down: the dividend was `nac`, and the divisor turns out to be zero.
        subst hxn
        exact Or.inr ⟨hdiv, rfl, rfl, rfl, combine_nac_left (by simp), rfl⟩
      · rw [combine_undefined_right op hxn]
        exact Or.inl rfl
    · rw [combine_zero hdiv]
      exact Or.inl rfl
    · cases hnac
  · left
    rcases le_cases hy with rfl | rfl | rfl
    · by_cases hxn : x = .nac
      · subst hxn
        rcases le_cases hx with h | rfl | rfl
        · cases h
        all_goals
          rw [combine_nac_left hzero]
          exact Value.le_nac _
      · rw [combine_undefined_right op hxn]
        rfl
    · rcases le_cases hx with rfl | rfl | rfl
      · by_cases hyn : y = .nac
        · rw [hyn, combine_nac_right, combine_nac_right]
          rfl
        · rw [combine_undefined_left op hyn]
          rfl
      · exact Value.le_refl _
      · rw [combine_nac_left hzero]
        exact Value.le_nac _
    · rw [combine_nac_right]
      exact Value.le_nac _

theorem evaluate_le_or (e : Expr) {f f' : ConstFact} (h : f ≤ f') :
    (evaluate e f).le (evaluate e f') = true ∨
      ∃ op l r, e = .binary op l r ∧ op.divides = true ∧ f.get l = .nac ∧
        f.get r = .undefined ∧ f'.get r = .constant 0 ∧ evaluate e f = .nac ∧
        evaluate e f' = .undefined := by
  cases e with
  | binary op l r =>
    rcases combine_le_or op (h l) (h r) with hle | hfalls
    · exact Or.inl hle
    · exact Or.inr ⟨op, l, r, rfl, hfalls⟩
  | var u => exact Or.inl (h u)
  | literal _ | neg _ | alloc _ | cast _ _ | instanceOf _ _ | field _ _ | element _ _
  | arrayLength _ => exact Or.inl (Value.le_refl _)

/-- The statement stores a quotient or a remainder in a followed variable. -/
def Divides (p : Procedure) (s : Stmt) (v : Var) (l r : Var) : Prop :=
  ∃ op, s.command = .assign (.var v) (.binary op l r) ∧ op.divides = true ∧ Followed p v

theorem flow_le_or {p : Procedure} {s : Stmt} {f f' : ConstFact} (h : f ≤ f') (v : Var) :
    ((flow p s f).get v).le ((flow p s f').get v) = true ∨
      ∃ l r, Divides p s v l r ∧ f.get l = .nac ∧ f.get r = .undefined ∧
        f'.get r = .constant 0 ∧ (flow p s f).get v = .nac ∧
        (flow p s f').get v = .undefined := by
  rw [get_flow, get_flow]
  split
  · rename_i hdef
    obtain ⟨hdef, hv⟩ := hdef
    obtain ⟨i, c⟩ := s
    cases c with
    | assign place e =>
      cases place with
      | var u =>
        obtain rfl : u = v := Option.some.inj hdef
        rcases evaluate_le_or e h with hle | ⟨op, l, r, rfl, hdiv, hfalls⟩
        · exact Or.inl hle
        · exact Or.inr ⟨l, r, ⟨op, rfl, hdiv, hv⟩, hfalls⟩
      | field _ _ | element _ _ => cases hdef
    | call _ _ _ => exact Or.inl (Value.le_refl _)
    | nop | goto _ | branch _ _ | switch _ _ _ | ret _ => cases hdef
  · exact Or.inl (h v)

theorem Divides.unique {p : Procedure} {s : Stmt} {v l r l' r' : Var} (h : Divides p s v l r)
    (h' : Divides p s v l' r') : l = l' ∧ r = r' := by
  obtain ⟨op, hc, -⟩ := h
  obtain ⟨op', hc', -⟩ := h'
  rw [hc] at hc'
  simp_all

/-! ## The facts of a run -/

section Run

variable {p : Procedure} {g : Graph} {state : Nat → Solver.State ConstFact}

/-- The value that leaves the node in the variable moves down on visit `k + 1`. -/
def Falls (after : Nat → Nat → ConstFact) (node : Nat) (v : Var) (k : Nat) : Prop :=
  ¬ ((after k node).get v).le ((after (k + 1) node).get v) = true

/-- All that is known of a visit on which a quotient falls. -/
structure FoundZero (before after : Nat → Nat → ConstFact) (node : Nat) (v l r : Var) (k : Nat) :
    Prop where
  dividend : (before k node).get l = .nac
  divisor : (before k node).get r = .undefined
  divisor_next : (before (k + 1) node).get r = .constant 0
  quotient : (after k node).get v = .nac
  quotient_next : (after (k + 1) node).get v = .undefined

theorem empty_le (f : ConstFact) : ConstFact.empty ≤ f := fun _ => rfl

theorem divides_of_falls (hb : Graph.build p = .ok g) (h : Solver.Trail (analysis p) g state)
    {node : Nat} {stmt : Stmt} (hstmt : g.stmt? node = some stmt) {v : Var} {k : Nat}
    (hfalls : Falls (fun k => (state k).left (analysis p)) node v k) :
    ∃ l r, Divides p stmt v l r ∧
      FoundZero (fun k => (state k).reached (analysis p)) (fun k => (state k).left (analysis p))
        node v l r k := by
  simp only [Falls] at hfalls
  have hcases := Solver.left_proceed_cases hb (lawful hb) (h.reached k) hstmt
  rw [← h.next] at hcases
  rcases hcases with he | he | ⟨hold, hnew⟩
  · rw [he] at hfalls
    exact absurd (Value.le_refl _) hfalls
  · -- Nothing falls from the initial fact.
    rw [he] at hfalls
    exact absurd (empty_le _ v) hfalls
  · have hle := h.reached_mono hb (lawful hb) node (Nat.le_succ k)
    rw [hold, hnew] at hfalls
    obtain ⟨l, r, hdiv, hl, hr, hr', hq, hq'⟩ := (flow_le_or hle v).resolve_left hfalls
    exact ⟨l, r, hdiv, hl, hr, hr', hold ▸ hq, hnew ▸ hq'⟩

theorem Divides.foundZero (hb : Graph.build p = .ok g) (h : Solver.Trail (analysis p) g state)
    {node : Nat} {stmt : Stmt} (hstmt : g.stmt? node = some stmt) {v l r : Var}
    (hdiv : Divides p stmt v l r) {k : Nat}
    (hfalls : Falls (fun k => (state k).left (analysis p)) node v k) :
    FoundZero (fun k => (state k).reached (analysis p)) (fun k => (state k).left (analysis p))
      node v l r k := by
  obtain ⟨l', r', hdiv', hfound⟩ := divides_of_falls hb h hstmt hfalls
  obtain ⟨rfl, rfl⟩ := hdiv.unique hdiv'
  exact hfound

theorem FoundZero.not_lt {before after : Nat → Nat → ConstFact} {node : Nat} {v l r : Var}
    {j k : Nat} (hmono : Monotone fun k => before k node)
    (hj : FoundZero before after node v l r j) (hk : FoundZero before after node v l r k) :
    ¬ j < k := by
  intro hlt
  -- A divisor that has been found to be zero would be unknown again.
  have hle := hmono hlt r
  simp only [hj.divisor_next, hk.divisor] at hle
  cases hle

/-- From visit to visit facts only rise, but for a quotient whose divisor turns out to be zero. -/
theorem facts_rise (hb : Graph.build p = .ok g) :
    ∃ before after : Nat → Nat → ConstFact,
      (∀ k, (solveWithin g k).facts.Holds .forward g.size (before k) (after k)) ∧
      (∀ node j k, j ≤ k → before j node ≤ before k node) ∧
      ∀ node stmt, g.stmt? node = some stmt → ∀ v,
        ((∀ l r, ¬ Divides p stmt v l r) →
          ∀ j k, j ≤ k → ((after j node).get v).le ((after k node).get v) = true) ∧
        ∀ l r, Divides p stmt v l r →
          (∀ k, Falls after node v k → FoundZero before after node v l r k) ∧
          ∀ j k, Falls after node v j → Falls after node v k → j = k := by
  have law := lawful hb
  obtain ⟨state, htrail, hfacts⟩ := Solver.exists_trail hb law
  have hmono := htrail.reached_mono hb law
  refine ⟨fun k => (state k).reached (analysis p), fun k => (state k).left (analysis p),
    ?_, fun node j k hjk => hmono node hjk, ?_⟩
  · intro k
    rw [solveWithin, Graph.procedure_of_build hb, hfacts]
    exact (htrail.reached k).holds hb law
  · intro node stmt hstmt v
    constructor
    · intro hno j k hjk
      induction k, hjk using Nat.le_induction with
      | base => exact Value.le_refl _
      | succ k _ ih =>
        apply Value.le_trans ih
        by_contra hfalls
        obtain ⟨l, r, hdiv, -⟩ := divides_of_falls hb htrail hstmt hfalls
        exact hno l r hdiv
    · intro l r hdiv
      refine ⟨fun k hk => hdiv.foundZero hb htrail hstmt hk, ?_⟩
      intro j k hj hk
      have hfound := hdiv.foundZero hb htrail hstmt hj
      have hfound' := hdiv.foundZero hb htrail hstmt hk
      have hjk := hfound.not_lt (hmono node) hfound'
      have hkj := hfound'.not_lt (hmono node) hfound
      omega

theorem quotient_of_divideLate_falls :
    Graph.build Solver.divideLate = .ok Solver.divideLateGraph ∧
    ∃ before after, FoundZero before after 0 ⟨2⟩ ⟨0⟩ ⟨1⟩ 5 ∧
      (∀ k, (solveWithin Solver.divideLateGraph k).facts.Holds .forward
        Solver.divideLateGraph.size (before k) (after k)) ∧
      ∀ k, Falls after 0 ⟨2⟩ k ↔ k = 5 := by
  have hb : Graph.build Solver.divideLate = .ok Solver.divideLateGraph := rfl
  have hfifth : ((solveWithin Solver.divideLateGraph 5).facts.out? 0).map (·.get ⟨2⟩) =
      some .nac := by decide +kernel
  have hsixth : ((solveWithin Solver.divideLateGraph 6).facts.out? 0).map (·.get ⟨2⟩) =
      some .undefined := by decide +kernel
  obtain ⟨before, after, hholds, -, hnodes⟩ := facts_rise hb
  obtain ⟨-, hquotient⟩ := hnodes 0 _ rfl ⟨2⟩
  obtain ⟨hfound, honce⟩ := hquotient ⟨0⟩ ⟨1⟩ ⟨.div, rfl, rfl, rfl⟩
  have hfalls : Falls after 0 ⟨2⟩ 5 := by
    have hout : ∀ k, FactTable.out? _ 0 = some (after k 0) := fun k => (hholds k 0 (by decide)).2
    rw [hout, Option.map_some, Option.some.injEq] at hfifth hsixth
    simp [Falls, hfifth, hsixth, Value.le]
  refine ⟨hb, before, after, hfound 5 hfalls, hholds, ?_⟩
  intro k
  constructor
  · exact fun hk => honce k 5 hk hfalls
  · rintro rfl
    exact hfalls

end Run

end Constants

end FlowFacts
