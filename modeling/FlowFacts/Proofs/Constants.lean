import FlowFacts.Constants
import FlowFacts.Proofs.ConstFact
import FlowFacts.Proofs.Solver
import FlowFacts.Proofs.Runs

/-! # Constant propagation is sound

At every moment of every run, the facts of a converged solution cover the store: a followed
variable that holds `n` is known to be `n` or to be no constant. The one way to break this is
to compute a followed variable from one that is not.
-/

namespace FlowFacts.Constants

/-! ## The transfer -/

section Transfer

variable {p : Procedure}

/-- The variable has a type that may hold an integer. -/
def Followed (p : Procedure) (v : Var) : Prop := p.holdsInt? v = some true

instance (p : Procedure) (v : Var) : Decidable (Followed p v) :=
  inferInstanceAs (Decidable (p.holdsInt? v = some true))

def flow (p : Procedure) (s : Stmt) (input : ConstFact) : ConstFact :=
  match assigned? p s input with
  | some (some (v, x)) => (input.update v x).1
  | _ => input

theorem holdsInt?_of_knows {v : Var} (h : p.knows v = true) : ∃ b, p.holdsInt? v = some b := by
  have hlt : v.index < p.vars.size := of_decide_eq_true h
  rw [Procedure.holdsInt?, Procedure.varType?, Array.getElem?_eq_getElem hlt]
  exact ⟨_, rfl⟩

theorem transfer_eq {s : Stmt} (h : ∀ v ∈ s.defines, p.knows v = true)
    (input output : ConstFact) :
    transfer p s input output = some (overwrite output (flow p s input)) := by
  obtain ⟨written, hwritten⟩ : ∃ written, assigned? p s input = some written := by
    unfold assigned?
    cases hd : s.defines with
    | none => exact ⟨none, rfl⟩
    | some v =>
      obtain ⟨b, hb⟩ := holdsInt?_of_knows (h v hd)
      simp only [hb, Option.map_some]
      exact ⟨_, rfl⟩
  rw [transfer, flow, hwritten]
  cases written with
  | none => rfl
  | some e => rfl

theorem lawful {g : Graph} (hb : Graph.build p = .ok g) :
    Solver.Lawful (analysis p) g (flow p) := by
  refine ⟨fun _ _ => rfl, ?_⟩
  intro node s hs input output
  have hknown := (Graph.wellFormed_of_stmt? hb hs).known
  refine ⟨(overwrite output (flow p s input)).2, ?_, ?_⟩
  · exact transfer_eq (fun v hv => hknown v (by simp [Option.mem_def.mp hv])) input output
  · rw [overwrite_snd_iff]
    exact ne_comm

theorem solveWithin_sized {g : Graph} (hb : Graph.build p = .ok g) (cap : Nat) :
    (solveWithin g cap).facts.Sized g.size ∧ (solveWithin g cap).outcome ≠ .stuck := by
  rw [solveWithin, Graph.procedure_of_build hb]
  exact Solver.solve_sized hb (lawful hb) cap

theorem get_flow (s : Stmt) (input : ConstFact) (u : Var) :
    (flow p s input).get u =
      if s.defines = some u ∧ Followed p u then assignedValue s input else input.get u := by
  unfold flow assigned?
  cases hd : s.defines with
  | none => simp
  | some v =>
    by_cases huv : v = u
    · subst huv
      cases hv : p.holdsInt? v with
      | none => simp [Followed, hv]
      | some b =>
        cases b with
        | false => simp [Followed, hv]
        | true => simp [Followed, hv, ConstFact.get_update]
    · have hvu : u ≠ v := Ne.symm huv
      cases hv : p.holdsInt? v with
      | none => simp [hv, huv]
      | some b =>
        cases b with
        | false => simp [hv, huv]
        | true => simp [hv, huv, hvu, ConstFact.get_update]

theorem get_nacs (vs : List Var) (f : ConstFact) (v : Var) :
    ((vs.map fun u => (u, Value.nac)).foldl (fun f u => (f.update u.1 u.2).1) f).get v =
      if v ∈ vs then .nac else f.get v := by
  induction vs generalizing f with
  | nil => simp
  | cons u vs ih =>
    rw [List.map_cons, List.foldl_cons, ih, ConstFact.get_update]
    by_cases hmem : v ∈ vs
    · simp [hmem]
    · by_cases hu : v = u
      · simp [hu]
      · simp [hmem, hu]

theorem get_boundary (p : Procedure) (v : Var) :
    (boundary p).get v = if v ∈ p.params ∧ Followed p v then .nac else .undefined := by
  have hmem : (v ∈ p.params.filter fun u => p.holdsInt? u = some true) ↔
      v ∈ p.params ∧ Followed p v := by
    simp [Followed]
  rw [boundary, ConstFact.ofList, get_nacs, ConstFact.get_empty]
  exact if_congr hmem rfl rfl

end Transfer

/-! ## Facts speak of followed variables only -/

def Supported (p : Procedure) (f : ConstFact) : Prop :=
  ∀ v, f.get v ≠ .undefined → Followed p v

theorem supported_of_reached {p : Procedure} {g : Graph} (hb : Graph.build p = .ok g)
    {s : Solver.State ConstFact} (h : Solver.Reached (analysis p) g s) (node : Nat) :
    Supported p (s.reached (analysis p) node) := by
  refine (h.facts_have (P := fun _ => Supported p) (Q := fun _ => Supported p) hb (lawful hb)
    ?_ ?_ ?_ ?_ node).1
  · intro m
    exact ⟨fun v hv => absurd (ConstFact.get_empty v) hv,
      fun v hv => absurd (ConstFact.get_empty v) hv⟩
  · intro v hv
    by_contra hnot
    apply hv
    show (boundary p).get v = _
    rw [get_boundary, if_neg fun h => hnot h.2]
  · intro m k x y _ hx hy v hv
    exact (ConstFact.get_ne_of_sup hv).elim (hx v) (hy v)
  · intro m stmt x _ _ hx v hv
    rw [get_flow] at hv
    split at hv
    · rename_i hdef
      exact hdef.2
    · exact hx v hv

/-! ## Constant operands -/

theorem combine_constants (op : Operator) (a b : Int32) :
    combine op (.constant a) (.constant b) =
      match op.eval? a b with
      | some c => .constant c
      | none => .undefined := by
  unfold combine
  split
  · rename_i h
    rw [Operator.eval?_eq_none_iff.mpr ⟨h.1, by simpa using h.2⟩]
  · rfl

theorem combine_eq_constant_iff {op : Operator} {x y : Value} {n : Int32} :
    combine op x y = .constant n ↔
      ∃ a b, x = .constant a ∧ y = .constant b ∧ op.eval? a b = some n := by
  constructor
  · intro h
    cases x with
    | constant a =>
      cases y with
      | constant b =>
        rw [combine_constants] at h
        split at h
        · rename_i c hc
          cases h
          exact ⟨a, b, rfl, rfl, hc⟩
        · cases h
      | undefined | nac => simp [combine] at h
    | undefined | nac =>
      unfold combine at h
      split at h
      · cases h
      · cases y <;> cases h
  · rintro ⟨a, b, rfl, rfl, hn⟩
    rw [combine_constants, hn]

/-! ## Facts that cover a store -/

section Cover

variable {p : Procedure} {f : ConstFact} {σ : Store}

/-- The fact allows what the followed variables hold. -/
def Covers (p : Procedure) (f : ConstFact) (σ : Store) : Prop :=
  ∀ v n, Followed p v → σ v = some n → (Value.constant n).le (f.get v) = true

/-- The variables whose values decide the value of an expression. -/
def operands : Expr → List Var
  | .var v => [v]
  | .binary _ left right => [left, right]
  | .literal _ | .neg _ | .alloc _ | .cast _ _ | .instanceOf _ _ | .field _ _ | .element _ _
  | .arrayLength _ => []

/-- Nothing is known of the expression, and it has an operand of which nothing ever is. -/
def Blind (p : Procedure) (f : ConstFact) (e : Expr) : Prop :=
  evaluate e f = .undefined ∧ ∃ u ∈ operands e, ¬ Followed p u

theorem get_cases (hsup : Supported p f) (hcov : Covers p f σ) {v : Var} {n : Int32}
    (hv : σ v = some n) :
    f.get v = .constant n ∨ f.get v = .nac ∨ (f.get v = .undefined ∧ ¬ Followed p v) := by
  by_cases hf : Followed p v
  · rcases Value.constant_le_iff.mp (hcov v n hf hv) with h | h
    · exact Or.inl h
    · exact Or.inr (Or.inl h)
  · exact Or.inr (Or.inr ⟨not_not.mp (mt (hsup v) hf), hf⟩)

theorem combine_cases {op : Operator} {a b n : Int32} (hv : op.eval? a b = some n) {x y : Value}
    (hx : x = .constant a ∨ x = .nac ∨ x = .undefined)
    (hy : y = .constant b ∨ y = .nac ∨ y = .undefined) :
    (Value.constant n).le (combine op x y) = true ∨
      (combine op x y = .undefined ∧ (x = .undefined ∨ y = .undefined)) := by
  -- The divisor is not zero, or there would be no result.
  have hzero : ¬ (op.divides = true ∧ y = .constant 0) := by
    rintro ⟨hdiv, rfl⟩
    have hb : b = 0 := by simpa [eq_comm] using hy
    rw [Operator.eval?_eq_none_iff.mpr ⟨hdiv, hb⟩] at hv
    cases hv
  unfold combine
  rw [if_neg hzero]
  rcases hx with rfl | rfl | rfl <;> rcases hy with rfl | rfl | rfl <;> simp [Value.le, hv]

theorem evaluate_cases (hsup : Supported p f) (hcov : Covers p f σ) {e : Expr} {n : Int32}
    (h : e.MayBe σ n) : (Value.constant n).le (evaluate e f) = true ∨ Blind p f e := by
  cases e with
  | literal k =>
    obtain rfl : n = k := h
    exact Or.inl (Value.le_refl _)
  | var v =>
    rcases get_cases hsup hcov h with hv | hv | ⟨hv, hnot⟩
    · exact Or.inl (Value.constant_le_iff.mpr (Or.inl hv))
    · exact Or.inl (Value.constant_le_iff.mpr (Or.inr hv))
    · exact Or.inr ⟨hv, v, List.mem_singleton.mpr rfl, hnot⟩
  | binary op left right =>
    obtain ⟨a, b, ha, hb, hv⟩ := h
    have hl := get_cases hsup hcov ha
    have hr := get_cases hsup hcov hb
    rcases combine_cases hv (hl.imp_right (Or.imp_right And.left))
      (hr.imp_right (Or.imp_right And.left)) with hle | ⟨hundef, hwhich⟩
    · exact Or.inl hle
    · refine Or.inr ⟨hundef, ?_⟩
      rcases hwhich with hwhich | hwhich
      · refine ⟨left, by simp [operands], ?_⟩
        simpa [hwhich] using hl
      · refine ⟨right, by simp [operands], ?_⟩
        simpa [hwhich] using hr
  | neg _ | alloc _ | cast _ _ | instanceOf _ _ | field _ _ | element _ _ | arrayLength _ =>
    exact Or.inl (Value.le_nac _)

theorem eq_of_evaluate (hsup : Supported p f) (hcov : Covers p f σ) {e : Expr} {n c : Int32}
    (h : e.MayBe σ n) (hc : evaluate e f = .constant c) : n = c := by
  rcases evaluate_cases hsup hcov h with hle | ⟨hundef, -⟩
  · rw [hc] at hle
    simpa [Value.le] using hle
  · rw [hc] at hundef
    cases hundef

def BlindStmt (p : Procedure) (f : ConstFact) (s : Stmt) : Prop :=
  ∃ v e, s.command = .assign (.var v) e ∧ Followed p v ∧ Blind p f e

/-- A statement keeps the store covered exactly when it is not blind. -/
theorem covers_flow_iff (hsup : Supported p f) (hcov : Covers p f σ) {s : Stmt}
    {result : Option Int32} (hy : s.command.Yields σ result) :
    Covers p (flow p s f) (σ.write s.defines result) ↔ ¬ BlindStmt p f s := by
  constructor
  · rintro hafter ⟨v, e, hc, hv, hundef, -⟩
    rw [hc] at hy
    obtain ⟨n, -, rfl⟩ := hy
    have hdef : s.defines = some v := by rw [Stmt.defines, hc]; rfl
    have hle := hafter v n hv (by rw [hdef, Store.write_eq])
    rw [get_flow, if_pos ⟨hdef, hv⟩, assignedValue, Stmt.rvalue?, hc] at hle
    simp [Command.rvalue?, hundef, Value.le] at hle
  · intro hsight u n hu hn
    rw [get_flow]
    by_cases hdef : s.defines = some u
    · rw [if_pos ⟨hdef, hu⟩, assignedValue]
      obtain ⟨i, c⟩ := s
      cases c with
      | assign place e =>
        cases place with
        | var v =>
          obtain rfl : v = u := by simpa [Stmt.defines, Command.defines] using hdef
          obtain ⟨k, hk, rfl⟩ := hy
          rw [hdef, Store.write_eq, Option.some.injEq] at hn
          subst hn
          exact (evaluate_cases hsup hcov hk).resolve_right fun h => hsight ⟨v, e, rfl, hu, h⟩
        | field _ _ | element _ _ => cases hdef
      | call _ _ _ => exact Value.le_nac _
      | nop | goto _ | branch _ _ | switch _ _ _ | ret _ => cases hdef
    · rw [if_neg fun h => hdef h.1]
      rw [Store.write_ne hdef] at hn
      exact hcov u n hu hn

theorem covers_mono {f' : ConstFact} (h : f ≤ f') (hcov : Covers p f σ) : Covers p f' σ :=
  fun v n hv hn => Value.le_trans (hcov v n hv hn) (h v)

theorem covers_boundary (hσ : σ.Initial p) : Covers p (boundary p) σ := by
  intro v n hv hn
  rw [get_boundary, if_pos ⟨(hσ v).mp (by rw [hn]; rfl), hv⟩]
  exact Value.le_nac _

end Cover

/-! ## Runs -/

section Runs

variable {p : Procedure} {g : Graph}

def BlindAt (p : Procedure) (facts : FactTable ConstFact) (node : Nat) : Prop :=
  ∃ s f, p.stmt? node = some s ∧ facts.in? node = some f ∧ BlindStmt p f s

/-- The facts of a solver state cover what a run holds. The entry is left with the boundary
fact, so nothing is asked of the fact that reaches it. -/
def CoveredAt (p : Procedure) (g : Graph) (s : Solver.State ConstFact) (m : Moment) : Prop :=
  if m.node = g.entry then m.store.Initial p
  else Covers p (s.reached (analysis p) m.node) m.store

theorem not_blindStmt (hb : Graph.build p = .ok g) {s : Solver.State ConstFact}
    (hr : Solver.Reached (analysis p) g s) {node : Nat} {stmt : Stmt}
    (hs : g.stmt? node = some stmt) (hsight : ¬ BlindAt p s.facts node) :
    ¬ BlindStmt p (s.reached (analysis p) node) stmt := by
  have hlt := Graph.lt_of_stmt? hb hs
  intro hblind
  rcases Graph.stmt?_cases hb hs with ⟨-, rfl⟩ | ⟨-, -, hp⟩
  · obtain ⟨v, e, hc, -⟩ := hblind
    cases hc
  · exact hsight ⟨stmt, _, hp,
      Solver.reaching_eq_reached (a := analysis p) (hr.tidy hb (lawful hb)).sized hlt, hblind⟩

theorem left_of_done (hb : Graph.build p = .ok g) {s : Solver.State ConstFact}
    (hr : Solver.Reached (analysis p) g s) (hdone : s.pending.toList = []) {node : Nat}
    {stmt : Stmt} (hs : g.stmt? node = some stmt) :
    node = g.entry ∧ stmt = ⟨g.entry, .nop⟩ ∧ s.left (analysis p) node = boundary p ∨
      node ≠ g.entry ∧
        s.left (analysis p) node = flow p stmt (s.reached (analysis p) node) := by
  have hcons := hr.consistent hb (lawful hb)
  by_cases hentry : node = g.entry
  · subst hentry
    exact Or.inl ⟨rfl, Graph.eq_nop_of_stmt?_entry hs, hcons.boundary⟩
  · have hsettled := hcons.settled node (Graph.lt_of_stmt? hb hs) hentry (by simp [hdone])
    exact Or.inr ⟨hentry, hsettled.output stmt hs⟩

theorem covers_left (hb : Graph.build p = .ok g) {s : Solver.State ConstFact}
    (hr : Solver.Reached (analysis p) g s) (hdone : s.pending.toList = []) {m : Moment}
    (hm : CoveredAt p g s m) (hsight : ¬ BlindAt p s.facts m.node) {stmt : Stmt}
    {result : Option Int32} (hs : g.stmt? m.node = some stmt)
    (hy : stmt.command.Yields m.store result) :
    Covers p (s.left (analysis p) m.node) (m.store.write stmt.defines result) := by
  unfold CoveredAt at hm
  rcases left_of_done hb hr hdone hs with ⟨hentry, rfl, hleft⟩ | ⟨hentry, hleft⟩
  · rw [if_pos hentry] at hm
    rw [hleft]
    exact covers_boundary hm
  · rw [if_neg hentry] at hm
    rw [hleft, covers_flow_iff (supported_of_reached hb hr _) hm hy]
    exact not_blindStmt hb hr hs hsight

theorem coveredAt_of_step (hb : Graph.build p = .ok g) {s : Solver.State ConstFact}
    (hr : Solver.Reached (analysis p) g s) (hdone : s.pending.toList = []) {m m' : Moment}
    {a : Action} (hm : CoveredAt p g s m) (hsight : ¬ BlindAt p s.facts a.node)
    (h : Step g m a m') : CoveredAt p g s m' := by
  have hfollows := h.follows
  have hbounds := hfollows.bounds hb
  have hcons := hr.consistent hb (lawful hb)
  have hsettled := hcons.settled m'.node hbounds.2.1 hbounds.2.2.1 (by simp [hdone])
  rw [CoveredAt, if_neg hbounds.2.2.1]
  apply covers_mono (hsettled.input m.node hfollows)
  cases h with
  | mk hs _ hy _ _ _ => exact covers_left hb hr hdone hm hsight hs hy

theorem coveredAt_of_run (hb : Graph.build p = .ok g) {s : Solver.State ConstFact}
    (hr : Solver.Reached (analysis p) g s) (hdone : s.pending.toList = []) {σ₀ : Store}
    (hσ : σ₀.Initial p) {trace : List Action} {m : Moment} (hrun : Run g ⟨g.entry, σ₀⟩ trace m)
    (hsight : ∀ a ∈ trace, ¬ BlindAt p s.facts a.node) : CoveredAt p g s m := by
  induction hrun with
  | start =>
    rw [CoveredAt, if_pos rfl]
    exact hσ
  | @step trace m m' a _ hstep ih =>
    have hbefore := ih fun a ha => hsight a (List.mem_append_left _ ha)
    exact coveredAt_of_step hb hr hdone hbefore (hsight a (by simp)) hstep

theorem converged_spec (hb : Graph.build p = .ok g) {cap : Nat}
    (hc : (solveWithin g cap).outcome = .converged) :
    ∃ s, Solver.Reached (analysis p) g s ∧ (solveWithin g cap).facts = s.facts ∧
      s.pending.toList = [] := by
  rw [solveWithin, Graph.procedure_of_build hb] at hc ⊢
  exact Solver.converged_spec hb (lawful hb) hc

theorem covers_of_run (hb : Graph.build p = .ok g) {cap : Nat}
    (hc : (solveWithin g cap).outcome = .converged) {σ₀ : Store} (hσ : σ₀.Initial p)
    {trace : List Action} {m : Moment} (hrun : Run g ⟨g.entry, σ₀⟩ trace m)
    (hsight : ∀ a ∈ trace, ¬ BlindAt p (solveWithin g cap).facts a.node) :
    ∃ f, (solveWithin g cap).facts.in? m.node = some f ∧ Supported p f ∧
      (m.node ≠ g.entry → Covers p f m.store) := by
  obtain ⟨s, hr, hfacts, hdone⟩ := converged_spec hb hc
  rw [hfacts] at hsight ⊢
  have hsized := (hr.tidy hb (lawful hb)).sized
  have hlt := hrun.lt_size hb (Graph.boundary_lt hb .forward)
  have hcovered := coveredAt_of_run hb hr hdone hσ hrun hsight
  refine ⟨_, Solver.reaching_eq_reached (a := analysis p) hsized hlt,
    supported_of_reached hb hr m.node, fun hm => ?_⟩
  rw [CoveredAt, if_neg hm] at hcovered
  exact hcovered

theorem out_of_blindAt (hb : Graph.build p = .ok g) {cap : Nat}
    (hc : (solveWithin g cap).outcome = .converged) {node : Nat}
    (hblind : BlindAt p (solveWithin g cap).facts node) :
    ∃ stmt v after, g.stmt? node = some stmt ∧ Followed p v ∧ stmt.defines = some v ∧
      (solveWithin g cap).facts.out? node = some after ∧ after.get v = .undefined := by
  obtain ⟨s, hr, hfacts, hdone⟩ := converged_spec hb hc
  obtain ⟨stmt, f, hs, hf, v, e, hcommand, hv, hundef, -⟩ := hblind
  rw [hfacts] at hf ⊢
  have hsized := (hr.tidy hb (lawful hb)).sized
  obtain ⟨hstmt, hentry⟩ := Graph.stmt?_body hb hs
  have hlt := Graph.lt_of_stmt? hb hstmt
  have hdef : stmt.defines = some v := by rw [Stmt.defines, hcommand]; rfl
  refine ⟨stmt, v, _, hstmt, hv, hdef,
    Solver.leaving_eq_left (a := analysis p) hsized hlt, ?_⟩
  have hsettled := (hr.consistent hb (lawful hb)).settled node hlt hentry (by simp [hdone])
  obtain rfl : s.reached (analysis p) node = f := by
    have := Solver.reaching_eq_reached (a := analysis p) hsized hlt
    exact Option.some.inj (this.symm.trans hf)
  rw [hsettled.output stmt hstmt, get_flow, if_pos ⟨hdef, hv⟩, assignedValue, Stmt.rvalue?,
    hcommand]
  exact hundef

def KeepsInts (p : Procedure) (s : Stmt) : Prop :=
  ∀ v ∈ s.defines, ∀ e ∈ s.rvalue?, Followed p v → ∀ u ∈ operands e, Followed p u

instance (p : Procedure) (s : Stmt) : Decidable (KeepsInts p s) :=
  inferInstanceAs (Decidable (∀ v ∈ s.defines, ∀ e ∈ s.rvalue?, Followed p v →
    ∀ u ∈ operands e, Followed p u))

theorem not_blindAt {node : Nat} (h : ∀ s ∈ p.stmt? node, KeepsInts p s)
    (facts : FactTable ConstFact) : ¬ BlindAt p facts node := by
  rintro ⟨s, f, hs, -, v, e, hc, hv, -, u, hu, hnot⟩
  have hdef : s.defines = some v := by rw [Stmt.defines, hc]; rfl
  have hvalue : s.rvalue? = some e := by rw [Stmt.rvalue?, hc]; rfl
  exact hnot (h s hs v hdef e hvalue hv u hu)

/-- Followed variables are computed from followed variables only. -/
def IntOperands (p : Procedure) : Prop := ∀ s ∈ p.stmts, KeepsInts p s

instance (p : Procedure) : Decidable (IntOperands p) :=
  inferInstanceAs (Decidable (∀ s ∈ p.stmts, KeepsInts p s))

theorem IntOperands.not_blindAt (h : IntOperands p) (facts : FactTable ConstFact) (node : Nat) :
    ¬ BlindAt p facts node := by
  apply Constants.not_blindAt
  intro s hs
  apply h s
  rw [Graph.mem_stmts, (Graph.stmt?_bounds hs).1]
  exact hs

/-- Whenever a run stands at a node, the facts there allow what the followed variables hold. -/
theorem constants_cover_runs (hb : Graph.build p = .ok g) (hints : IntOperands p) {cap : Nat}
    (hc : (solveWithin g cap).outcome = .converged) {σ₀ : Store} (hσ : σ₀.Initial p)
    {trace : List Action} {m : Moment} (hrun : Run g ⟨g.entry, σ₀⟩ trace m)
    (hm : m.node ≠ g.entry) :
    ∃ before after, (solveWithin g cap).facts.in? m.node = some before ∧
      (solveWithin g cap).facts.out? m.node = some after ∧
      (∀ v n, Followed p v → m.store v = some n →
        before.get v = .constant n ∨ before.get v = .nac) ∧
      ∀ stmt result, g.stmt? m.node = some stmt → Ready m.store stmt →
        stmt.command.Yields m.store result → ∀ v n, Followed p v →
        m.store.write stmt.defines result v = some n →
        after.get v = .constant n ∨ after.get v = .nac := by
  obtain ⟨s, hr, hfacts, hdone⟩ := converged_spec hb hc
  have hsized := (hr.tidy hb (lawful hb)).sized
  have hlt := hrun.lt_size hb (Graph.boundary_lt hb .forward)
  have hsight := hints.not_blindAt s.facts
  have hcovered := coveredAt_of_run hb hr hdone hσ hrun fun a _ => hsight a.node
  refine ⟨s.reached (analysis p) m.node, s.left (analysis p) m.node, ?_, ?_, ?_, ?_⟩
  · rw [hfacts]
    exact Solver.reaching_eq_reached (a := analysis p) hsized hlt
  · rw [hfacts]
    exact Solver.leaving_eq_left (a := analysis p) hsized hlt
  · intro v n hv hn
    rw [CoveredAt, if_neg hm] at hcovered
    exact Value.constant_le_iff.mp (hcovered v n hv hn)
  · intro stmt result hs _ hy v n hv hn
    exact Value.constant_le_iff.mp
      (covers_left hb hr hdone hcovered (hsight m.node) hs hy v n hv hn)

end Runs

/-- Halves a parameter until it is zero. -/
def halve : Procedure where
  vars := #[⟨"n", .int⟩, ⟨"two", .int⟩, ⟨"zero", .int⟩]
  params := [⟨0⟩]
  body := #[
    .assign (.var ⟨1⟩) (.literal 2),
    .assign (.var ⟨2⟩) (.literal 0),
    .branch (.binary .eq ⟨0⟩ ⟨2⟩) 5,
    .assign (.var ⟨0⟩) (.binary .div ⟨0⟩ ⟨1⟩),
    .goto 2,
    .ret (some ⟨0⟩)]
  params_known := by simp [Var.index]

def halveGraph : Graph := Graph.link halve (halve.stmts.map (Graph.plainEdges halve))

theorem constants_cover_halve :
    ∃ trace m before, Graph.build halve = .ok halveGraph ∧ IntOperands halve ∧
      (solveWithin halveGraph 100).outcome = .converged ∧
      Run halveGraph ⟨halveGraph.entry, .uniform halve 7⟩ trace m ∧ m.node = 4 ∧
      m.store ⟨0⟩ = some 3 ∧ (solveWithin halveGraph 100).facts.in? m.node = some before ∧
      ∀ v n, Followed halve v → m.store v = some n →
        before.get v = .constant n ∨ before.get v = .nac := by
  have hb : Graph.build halve = .ok halveGraph := rfl
  have hints : IntOperands halve := by decide
  have hc : (solveWithin halveGraph 100).outcome = .converged := by decide +kernel
  have h₀ : Run halveGraph ⟨6, .uniform halve 7⟩ [] ⟨6, .uniform halve 7⟩ := .start
  have h₁ := h₀.step (.mk (e := ⟨6, 0, .entry⟩) rfl (by decide) rfl rfl (by decide) trivial)
  have h₂ := h₁.step (.mk (e := ⟨0, 1, .fallThrough⟩) rfl (by decide) ⟨_, rfl, rfl⟩ rfl
    (by decide) trivial)
  have h₃ := h₂.step (.mk (e := ⟨1, 2, .fallThrough⟩) rfl (by decide) ⟨_, rfl, rfl⟩ rfl
    (by decide) trivial)
  have h₄ := h₃.step (.mk (e := ⟨2, 3, .ifFalse⟩) rfl (by decide) rfl rfl
    (by decide) (Or.inr ⟨rfl, _, _, rfl, rfl, rfl⟩))
  have h₅ := h₄.step (.mk (e := ⟨3, 4, .fallThrough⟩) rfl (by decide)
    ⟨_, ⟨_, _, rfl, rfl, rfl⟩, rfl⟩ rfl (by decide) trivial)
  obtain ⟨before, after, hin, -, hbefore, -⟩ :=
    constants_cover_runs hb hints hc (Store.initial_uniform halve 7) h₅ (by decide)
  exact ⟨_, _, before, hb, hints, hc, h₅, rfl, by decide, hin, hbefore⟩

end FlowFacts.Constants
