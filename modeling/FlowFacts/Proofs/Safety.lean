import FlowFacts.Proofs.ControlFlow
import FlowFacts.Proofs.DeadCode

/-! # Nothing goes out of range

However a procedure is put together, whatever its jumps and variables are, building its graph
looks up nothing that is not there. Once the graph is built, neither do the two analyses with any
cap, nor the search for dead code. No folding divides by zero, and no condition is odd, whatever
the tables say.
-/

namespace FlowFacts

/-! ## Procedures and their histories -/

namespace Procedure

/-- One way to make a procedure grow or to change it. -/
inductive Edit where
  | newVar (name : String) (ty : Ty)
  | newParam (name : String) (ty : Ty)
  | push (c : Command)
  | assign (v : Var) (value : Expr)
  | setCommand (i : Nat) (c : Command)

/-- Fails only where a command is changed at a position that is not taken yet. -/
def edit? (p : Procedure) : Edit → Option Procedure
  | .newVar name ty => some (p.newVar name ty).1
  | .newParam name ty => some (p.newParam name ty).1
  | .push c => some (p.push c).1
  | .assign v value => some (p.assign v value).1
  | .setCommand i c => p.setCommand? i c

/-- The procedure that a history of edits makes out of the empty one. -/
def made? (edits : List Edit) : Option Procedure := edits.foldlM edit? empty

/-- Numbers a statement when it is added and never again. -/
def number (stmts : List Stmt) : Edit → List Stmt
  | .newVar _ _ | .newParam _ _ => stmts
  | .push c => stmts ++ [⟨stmts.length, c⟩]
  | .assign v value => stmts ++ [⟨stmts.length, .assign (.var v) value⟩]
  | .setCommand i c => stmts.modify i fun s => { s with command := c }

def numbered (edits : List Edit) : List Stmt := edits.foldl number []

theorem stmts_push (p : Procedure) (c : Command) :
    (p.push c).1.stmts = p.stmts ++ [⟨p.stmts.length, c⟩] := by
  simp [push, stmts, List.mapIdx_append]

theorem stmts_setCommand {p p' : Procedure} {i : Nat} {c : Command}
    (h : p.setCommand? i c = some p') :
    p'.stmts = p.stmts.modify i fun s => { s with command := c } := by
  unfold setCommand? at h
  split at h
  · rename_i hi
    cases h
    apply List.ext_getElem?
    intro j
    rw [List.getElem?_modify, Graph.stmts_getElem?, Graph.stmts_getElem?]
    by_cases hij : i = j
    · subst hij
      have hlt : i < p.body.size := hi
      simp [hlt]
    · simp [hij]
  · cases h

theorem number_edit {p p' : Procedure} {e : Edit} (h : p.edit? e = some p') :
    p'.stmts = number p.stmts e := by
  cases e with
  | newVar name ty =>
    cases h
    rfl
  | newParam name ty =>
    cases h
    rfl
  | push c =>
    cases h
    exact stmts_push p c
  | assign v value =>
    cases h
    exact stmts_push p _
  | setCommand i c => exact stmts_setCommand h

theorem number_edits {edits : List Edit} {p q : Procedure} (h : edits.foldlM edit? q = some p) :
    edits.foldl number q.stmts = p.stmts := by
  induction edits generalizing q with
  | nil =>
    cases h
    rfl
  | cons e edits ih =>
    rw [List.foldlM_cons, Option.bind_eq_bind, Option.bind_eq_some_iff] at h
    obtain ⟨q', he, h⟩ := h
    rw [List.foldl_cons, ← number_edit he]
    exact ih h

theorem numbered_eq_stmts {edits : List Edit} {p : Procedure} (h : made? edits = some p) :
    numbered edits = p.stmts := number_edits h

end Procedure

/-! ## Folding -/

namespace Constants

/-- What is known of a binary expression, or `none` when constants are folded that have no
result. -/
def combine? (op : Operator) (x y : Value) : Option Value :=
  if op.divides = true ∧ y = .constant 0 then some .undefined
  else
    match x, y with
    | .constant a, .constant b => (op.eval? a b).map .constant
    | .nac, _ => some .nac
    | _, .nac => some .nac
    | _, _ => some .undefined

def evaluate? (e : Expr) (f : ConstFact) : Option Value :=
  match e with
  | .binary op left right => combine? op (f.get left) (f.get right)
  | e => some (evaluate e f)

theorem combine?_eq (op : Operator) (x y : Value) : combine? op x y = some (combine op x y) := by
  unfold combine? combine
  split
  · rfl
  · rename_i hzero
    cases x with
    | constant a =>
      cases y with
      | constant b =>
        -- Only a division by zero has no result, and that is told apart before.
        obtain ⟨c, hc⟩ : ∃ c, op.eval? a b = some c := by
          rw [← Option.ne_none_iff_exists', ne_eq, Operator.eval?_eq_none_iff]
          exact fun h => hzero ⟨h.1, congrArg Value.constant h.2⟩
        simp [hc]
      | undefined | nac => rfl
    | undefined | nac => cases y <;> rfl

theorem evaluate?_eq (e : Expr) (f : ConstFact) : evaluate? e f = some (evaluate e f) := by
  cases e with
  | binary op left right => exact combine?_eq op _ _
  | _ => rfl

end Constants

/-! ## Conditions -/

namespace DeadCode

section Odd

variable {p : Procedure} {g : Graph} (constants : FactTable ConstFact) (live : FactTable VarSet)

theorem way_ne_odd (hb : Graph.build p = .ok g) {node : Nat} {s : Stmt}
    (hs : g.stmt? node = some s) (m : Nat) (n : Int32) :
    way g constants node s ≠ .error (.oddCondition m n) := by
  have hjumps := (Graph.wellFormed_of_stmt? hb hs).jumps
  obtain ⟨i, c⟩ := s
  cases c with
  | branch cond target =>
    unfold way factAt
    cases constants.in? node with
    | none => simp [bind, Except.bind]
    | some f =>
      simp only [bind, Except.bind]
      cases hv : Constants.evaluate cond f with
      | constant k =>
        rcases evaluate_condition hjumps.1 hv with rfl | rfl <;> simp [pure, Except.pure]
      | undefined | nac => simp [pure, Except.pure]
  | switch on cases otherwise =>
    unfold way factAt edgesAt
    cases constants.in? node with
    | none => simp [bind, Except.bind]
    | some f =>
      simp only [bind, Except.bind]
      cases f.get on with
      | constant k =>
        cases g.outEdges? node <;> simp [pure, Except.pure]
      | undefined | nac => simp [pure, Except.pure]
  | _ => simp [way]

theorem visit_ne_odd (hb : Graph.build p = .ok g) (node : Nat) (w : Walk) (m : Nat) (n : Int32) :
    visit g constants live node w ≠ .error (.oddCondition m n) := by
  unfold visit
  cases hs : g.stmt? node with
  | none => simp
  | some s =>
    have hway := way_ne_odd constants hb hs m n
    simp only [bind, Except.bind]
    cases huseless : useless? live node s with
    | error e =>
      unfold useless? at huseless
      split at huseless
      · split at huseless
        · cases huseless
        · cases huseless
          simp
      · cases huseless
    | ok useless =>
      cases hchosen : way g constants node s with
      | error e => simpa [hchosen] using hway
      | ok chosen =>
        unfold edgesAt
        cases g.outEdges? node <;> simp [pure, Except.pure]

theorem walk_ne_odd (hb : Graph.build p = .ok g) (pops : Nat) (w : Walk) (m : Nat) (n : Int32) :
    (walk g constants live pops w).2 ≠ some (.oddCondition m n) := by
  induction pops generalizing w with
  | zero =>
    unfold walk
    split <;> simp
  | succ pops ih =>
    unfold walk
    cases w.queue.pop? with
    | none => simp
    | some next =>
      simp only
      split
      · exact ih _
      · have hvisit := visit_ne_odd constants live hb next.1
          { w with queue := next.2 } m n
        cases hv : visit g constants live next.1 { w with queue := next.2 } with
        | ok w' => exact ih w'
        | error fault => simpa [hv] using hvisit

theorem detect_ne_odd (hb : Graph.build p = .ok g) (m : Nat) (n : Int32) :
    (detect g constants live).result ≠ .error (.oddCondition m n) := by
  have hwalk := walk_ne_odd constants live hb (g.edges.length + 1)
    (.start g) m n
  unfold detect
  generalize walk g constants live (g.edges.length + 1) (.start g) = result at hwalk ⊢
  obtain ⟨w, fault⟩ := result
  cases fault with
  | none => simp
  | some fault => simpa using hwalk

end Odd

end DeadCode

/-! ## The whole of it -/

/-- No look-up of the builder, the solver or the walk is ever out of range. -/
theorem nothing_out_of_range (p : Procedure) :
    (∀ edits, Procedure.made? edits = some p → Procedure.numbered edits = p.stmts) ∧
    (∀ (i : Nat) (s : Stmt), p.stmts[i]? = some s → s.index = i) ∧
    (∀ v ∈ p.params, ∃ b, p.holdsInt? v = some b) ∧
    Graph.lay p = (Graph.build p).mapError .fault ∧
    (∀ e f, Constants.evaluate? e f = some (Constants.evaluate e f)) ∧
    ∀ g, Graph.build p = .ok g →
      (∀ cap, (Constants.solveWithin g cap).outcome ≠ .stuck) ∧
      (∀ cap, (Liveness.solveWithin g cap).outcome ≠ .stuck) ∧
      (∀ cap cap', ∃ dead, (DeadCode.detect g (Constants.solveWithin g cap).facts
        (Liveness.solveWithin g cap').facts).result = .ok dead) ∧
      ∀ constants live m n,
        (DeadCode.detect g constants live).result ≠ .error (.oddCondition m n) := by
  refine ⟨fun edits => Procedure.numbered_eq_stmts, ?_, ?_, Graph.lay_eq_build p,
    Constants.evaluate?_eq, ?_⟩
  · intro i s hs
    rw [Graph.stmts_getElem?] at hs
    exact (Graph.stmt?_bounds hs).1
  · intro v hv
    exact Constants.holdsInt?_of_knows (decide_eq_true (p.params_known v hv))
  · intro g hb
    refine ⟨fun cap => (Constants.solveWithin_sized hb cap).2,
      fun cap => (Liveness.solveWithin_sized hb cap).2, ?_, ?_⟩
    · intro cap cap'
      obtain ⟨dead, hdead, -⟩ := DeadCode.detect_spec hb (Constants.solveWithin_sized hb cap).1
        (Liveness.solveWithin_sized hb cap').1
      exact ⟨dead, hdead⟩
    · exact fun constants live m n => DeadCode.detect_ne_odd constants live hb m n

theorem forkAndJoin_in_range :
    ∃ edits g dead, Procedure.made? edits = some Graph.forkAndJoin ∧
      Procedure.numbered edits = Graph.forkAndJoin.stmts ∧
      Graph.build Graph.forkAndJoin = .ok g ∧
      (Constants.solveWithin g 2).outcome = .capped ∧
      (DeadCode.detect g (Constants.solveWithin g 2).facts
        (Liveness.solveWithin g 1).facts).result = .ok dead := by
  obtain ⟨hnumbered, -, -, -, -, hgraph⟩ := nothing_out_of_range Graph.forkAndJoin
  obtain ⟨-, -, hdetect, -⟩ := hgraph _ rfl
  obtain ⟨dead, hdead⟩ := hdetect 2 1
  have hmade : Procedure.made? [.newParam "x" .int, .push .nop,
      .push (.branch (.binary .lt ⟨0⟩ ⟨0⟩) 0), .push .nop,
      .setCommand 0 (.switch ⟨0⟩ [(1, 2), (2, 2)] 1)] = some Graph.forkAndJoin := rfl
  exact ⟨_, _, dead, hmade, hnumbered _ hmade, rfl, by decide +kernel, hdead⟩

end FlowFacts
