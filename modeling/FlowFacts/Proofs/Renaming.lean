import FlowFacts.Proofs.Simulation
import FlowFacts.Proofs.Fixpoint
import FlowFacts.Proofs.DeadCode
import FlowFacts.Proofs.Contract

/-! # The numbering of variables does not matter

Variables may be renumbered within their table. The graph keeps its edges, both analyses make the
same visits with every cap, a renamed variable has the facts of the old one, and the same nodes
are dead.
-/

namespace FlowFacts

/-! ## Renamed procedures -/

def Expr.rename (π : Var → Var) : Expr → Expr
  | .literal n => .literal n
  | .var v => .var (π v)
  | .binary op left right => .binary op (π left) (π right)
  | .neg v => .neg (π v)
  | .alloc className => .alloc className
  | .cast ty v => .cast ty (π v)
  | .instanceOf v ty => .instanceOf (π v) ty
  | .field base name => .field (base.map π) name
  | .element array index => .element (π array) (π index)
  | .arrayLength v => .arrayLength (π v)

def Place.rename (π : Var → Var) : Place → Place
  | .var v => .var (π v)
  | .field base name => .field (base.map π) name
  | .element array index => .element (π array) (π index)

def Command.rename (π : Var → Var) : Command → Command
  | .nop => .nop
  | .assign place value => .assign (place.rename π) (value.rename π)
  | .goto target => .goto target
  | .branch cond target => .branch (cond.rename π) target
  | .switch on cases otherwise => .switch (π on) cases otherwise
  | .call result method args => .call (result.map π) method (args.map π)
  | .ret value => .ret (value.map π)

def Stmt.rename (π : Var → Var) (s : Stmt) : Stmt := ⟨s.index, s.command.rename π⟩

theorem Procedure.knows_iff {p : Procedure} {v : Var} :
    p.knows v = true ↔ v.index < p.vars.size := decide_eq_true_iff

/-- A permutation of the variables that keeps the table apart from the rest. -/
structure Renaming (p : Procedure) where
  perm : Equiv.Perm Var
  knows_perm : ∀ v, p.knows (perm v) = p.knows v

/-- The procedure with its table, its parameters and its body renamed. -/
def Procedure.rename (p : Procedure) (r : Renaming p) : Procedure where
  vars := p.vars.mapIdx fun i info => p.vars[(r.perm.symm (Var.ofIndex i)).index]?.getD info
  params := p.params.map r.perm
  body := p.body.map (Command.rename r.perm)
  params_known := by
    intro v hv
    obtain ⟨u, hu, rfl⟩ := List.mem_map.mp hv
    rw [Array.size_mapIdx, ← Procedure.knows_iff, r.knows_perm, Procedure.knows_iff]
    exact p.params_known u hu

def Renaming.swap (p : Procedure) (u v : Var) (hu : p.knows u = true) (hv : p.knows v = true) :
    Renaming p where
  perm := Equiv.swap u v
  knows_perm := by
    intro x
    rw [Equiv.swap_apply_def]
    split
    · simp_all
    · split <;> simp_all

/-! ## Reading a renamed statement -/

section Read

variable (π : Var → Var)

theorem Expr.uses_rename (e : Expr) : (e.rename π).uses = e.uses.map π := by
  cases e with
  | field base name => cases base <;> rfl
  | _ => rfl

theorem Expr.isCondition_rename (e : Expr) : (e.rename π).isCondition = e.isCondition := by
  cases e <;> rfl

theorem Expr.isPure_rename (e : Expr) : (e.rename π).isPure = e.isPure := by
  cases e <;> rfl

theorem Place.uses_rename (place : Place) : (place.rename π).uses = place.uses.map π := by
  cases place with
  | field base name => cases base <;> rfl
  | _ => rfl

theorem Stmt.defines_rename (s : Stmt) : (s.rename π).defines = s.defines.map π := by
  obtain ⟨i, c⟩ := s
  cases c with
  | assign place value => cases place <;> rfl
  | _ => rfl

theorem Stmt.rvalue?_rename (s : Stmt) : (s.rename π).rvalue? = s.rvalue?.map (Expr.rename π) := by
  obtain ⟨i, c⟩ := s
  cases c <;> rfl

theorem Stmt.uses_rename (s : Stmt) : (s.rename π).uses = s.uses.map π := by
  obtain ⟨i, c⟩ := s
  cases c with
  | assign place value =>
    simp [Stmt.rename, Command.rename, Stmt.uses, Command.uses, Expr.uses_rename,
      Place.uses_rename]
  | branch cond target => exact Expr.uses_rename π cond
  | ret value => cases value <;> rfl
  | _ => rfl

end Read

namespace Procedure

variable {p : Procedure} (r : Renaming p)

theorem size_rename : (p.rename r).size = p.size := by
  simp [rename, size]

theorem vars_rename (v : Var) : (p.rename r).vars[(r.perm v).index]? = p.vars[v.index]? := by
  have hknows : (r.perm v).index < p.vars.size ↔ v.index < p.vars.size := by
    rw [← knows_iff, r.knows_perm, knows_iff]
  simp only [rename, Array.getElem?_mapIdx, Var.ofIndex_index, Equiv.symm_apply_apply]
  by_cases hv : v.index < p.vars.size
  · rw [Array.getElem?_eq_getElem hv, Array.getElem?_eq_getElem (hknows.mpr hv)]
    rfl
  · rw [Array.getElem?_eq_none (by omega), Array.getElem?_eq_none (by omega)]
    rfl

theorem knows_rename (v : Var) : (p.rename r).knows (r.perm v) = p.knows v := by
  rw [← r.knows_perm v, Bool.eq_iff_iff, knows_iff, knows_iff, rename, Array.size_mapIdx]

theorem holdsInt?_rename (v : Var) : (p.rename r).holdsInt? (r.perm v) = p.holdsInt? v := by
  simp only [holdsInt?, varType?, vars_rename]

theorem stmts_rename : (p.rename r).stmts = p.stmts.map (Stmt.rename r.perm) := by
  apply List.ext_getElem?
  intro i
  simp only [rename, stmts, Array.toList_map, List.getElem?_mapIdx, List.getElem?_map]
  cases p.body.toList[i]? <;> rfl

theorem stmt?_rename (i : Nat) : (p.rename r).stmt? i = (p.stmt? i).map (Stmt.rename r.perm) := by
  simp only [rename, stmt?, Array.getElem?_map]
  cases p.body[i]? <;> rfl

end Procedure

/-! ## The graph -/

namespace Graph

variable {p : Procedure} {g : Graph} (r : Renaming p)

theorem goodJumps_rename (c : Command) :
    GoodJumps (p.rename r) (c.rename r.perm) ↔ GoodJumps p c := by
  cases c <;> simp [Command.rename, GoodJumps, Procedure.size_rename, Expr.isCondition_rename]

theorem wellFormed_rename {s : Stmt} (h : WellFormed p s) :
    WellFormed (p.rename r) (s.rename r.perm) := by
  constructor
  · intro v hv
    rw [Stmt.defines_rename, Stmt.uses_rename, Option.toList_map, ← List.map_append] at hv
    obtain ⟨u, hu, rfl⟩ := List.mem_map.mp hv
    rw [Procedure.knows_rename]
    exact h.known u hu
  · exact (goodJumps_rename r s.command).mpr h.jumps

theorem plainEdges_rename (s : Stmt) :
    plainEdges (p.rename r) (s.rename r.perm) = plainEdges p s := by
  obtain ⟨i, c⟩ := s
  cases c <;> simp only [Stmt.rename, Command.rename, plainEdges, next, Procedure.size_rename]

/-- The graph of the renamed procedure has the edges of the old one. -/
def rename (g : Graph) (r : Renaming p) : Graph := { g with procedure := p.rename r }

theorem build_rename (hb : build p = .ok g) : build (p.rename r) = .ok (g.rename r) := by
  obtain ⟨hwell, rfl⟩ := (build_eq_ok_iff p g).mp hb
  rw [build_eq_ok_iff, Procedure.stmts_rename, List.map_map]
  constructor
  · intro s hs
    obtain ⟨t, ht, rfl⟩ := List.mem_map.mp hs
    exact wellFormed_rename r (hwell t ht)
  · have hedges : plainEdges (p.rename r) ∘ Stmt.rename r.perm = plainEdges p :=
      funext (plainEdges_rename r)
    rw [hedges]
    simp only [rename, link, entryEdge, Procedure.size_rename]

theorem sameEdges_rename (hb : build p = .ok g) : g.SameEdges (g.rename r) := by
  refine ⟨?_, rfl, rfl⟩
  rw [procedure_of_build hb]
  exact Procedure.size_rename r

theorem stmt?_rename (hb : build p = .ok g) (node : Nat) :
    (g.rename r).stmt? node = (g.stmt? node).map (Stmt.rename r.perm) := by
  have hentry : (g.rename r).entry = g.entry := (sameEdges_rename r hb).boundary .forward
  have hexit : (g.rename r).exit = g.exit := (sameEdges_rename r hb).boundary .backward
  unfold stmt?
  rw [hentry, hexit]
  split
  · rfl
  · rw [procedure_of_build hb]
    exact Procedure.stmt?_rename r node

end Graph

/-! ## The analyses -/

/-- The second fact tells of a renamed variable what the first tells of the old one. -/
def Renamed {F α : Type} (view : F → Var → α) (π : Equiv.Perm Var) (x y : F) : Prop :=
  ∀ v, view y (π v) = view x v

namespace Renamed

variable {F α : Type} {view : F → Var → α} {π : Equiv.Perm Var} {x x' y y' : F}

theorem eq_iff (hview : Function.Injective view) (h : Renamed view π x y)
    (h' : Renamed view π x' y') : x = x' ↔ y = y' := by
  constructor
  · rintro rfl
    apply hview
    funext v
    rw [← π.apply_symm_apply v, h, h']
  · rintro rfl
    apply hview
    funext v
    rw [← h, ← h']

theorem overwrite [DecidableEq F] (hview : Function.Injective view) (h : Renamed view π x y)
    (h' : Renamed view π x' y') :
    Solver.RelatedChange (Renamed view π) (overwrite x' x) (overwrite y' y) := by
  refine ⟨h, ?_⟩
  simp only [FlowFacts.overwrite, ne_eq, h'.eq_iff hview h]

end Renamed

namespace Constants

variable {p : Procedure} {g : Graph} (r : Renaming p)

theorem evaluate_rename {π : Equiv.Perm Var} {f f' : ConstFact} (h : Renamed ConstFact.get π f f') (e : Expr) :
    evaluate (e.rename π) f' = evaluate e f := by
  cases e with
  | var v => exact h v
  | binary op left right =>
    simp only [Expr.rename, evaluate]
    rw [h left, h right]
  | _ => rfl

theorem boundary_rename : Renamed ConstFact.get r.perm (boundary p) (boundary (p.rename r)) := by
  intro v
  have hfollowed : Followed (p.rename r) (r.perm v) ↔ Followed p v := by
    rw [Followed, Followed, Procedure.holdsInt?_rename]
  have hparam : r.perm v ∈ (p.rename r).params ↔ v ∈ p.params :=
    List.mem_map_of_injective r.perm.injective
  rw [get_boundary, get_boundary]
  simp only [hfollowed, hparam]

theorem assigned?_rename {f f' : ConstFact} (h : Renamed ConstFact.get r.perm f f') (s : Stmt) :
    assigned? (p.rename r) (s.rename r.perm) f' =
      (assigned? p s f).map (Option.map (Prod.map r.perm id)) := by
  have hvalue : assignedValue (s.rename r.perm) f' = assignedValue s f := by
    unfold assignedValue
    rw [Stmt.rvalue?_rename]
    cases s.rvalue? with
    | none => rfl
    | some e => exact evaluate_rename h e
  unfold assigned?
  rw [Stmt.defines_rename]
  cases s.defines with
  | none => rfl
  | some v =>
    simp only [Option.map_some, Procedure.holdsInt?_rename, hvalue]
    cases p.holdsInt? v with
    | none => rfl
    | some followed => cases followed <;> rfl

theorem transfer_rename {s : Stmt} {x y x' y' : ConstFact} (h : Renamed ConstFact.get r.perm x y)
    (h' : Renamed ConstFact.get r.perm x' y') :
    Option.Rel (Solver.RelatedChange (Renamed ConstFact.get r.perm)) (transfer p s x x')
      (transfer (p.rename r) (s.rename r.perm) y y') := by
  unfold transfer
  rw [assigned?_rename r h]
  cases assigned? p s x with
  | none => exact .none
  | some written =>
    cases written with
    | none => exact .some (h.overwrite ConstFact.get_injective h')
    | some e =>
      have hnew : Renamed ConstFact.get r.perm (x.update e.1 e.2).1
          (y.update (r.perm e.1) e.2).1 := by
        intro v
        simp only [ConstFact.get_update, h v, r.perm.injective.eq_iff]
      exact .some (hnew.overwrite ConstFact.get_injective h')

theorem inStep_rename (hb : Graph.build p = .ok g) :
    Solver.InStep (Renamed ConstFact.get r.perm) (analysis p) g (analysis (p.rename r)) (g.rename r) := by
  refine ⟨Graph.sameEdges_rename r hb, rfl, boundary_rename r, fun _ => rfl, ?_, ?_⟩
  · intro x y x' y' h h' v
    show (ConstFact.meetInto y y').1.get (r.perm v) = (ConstFact.meetInto x x').1.get v
    rw [ConstFact.get_meetInto, ConstFact.get_meetInto, h, h']
  · intro node
    rw [Graph.stmt?_rename r hb]
    cases g.stmt? node with
    | none => exact .none
    | some s => exact .some fun x y x' y' h h' => transfer_rename r h h'

end Constants

namespace Liveness

variable {p : Procedure} {g : Graph} (r : Renaming p)

theorem before_rename {s : Stmt} {x y : VarSet} (h : Renamed VarSet.contains r.perm x y) :
    Renamed VarSet.contains r.perm (before s x) (before (s.rename r.perm) y) := by
  intro v
  have hmem : r.perm v ∈ y ↔ v ∈ x := Bool.eq_iff_iff.mp (h v)
  have hdef : s.defines.map r.perm = some (r.perm v) ↔ s.defines = some v := by
    cases s.defines <;> simp
  rw [Bool.eq_iff_iff]
  show r.perm v ∈ before _ y ↔ v ∈ before s x
  rw [mem_before, mem_before, Stmt.uses_rename, Stmt.defines_rename, hmem, ne_eq, hdef,
    List.mem_map_of_injective r.perm.injective]

theorem inStep_rename (hb : Graph.build p = .ok g) :
    Solver.InStep (Renamed VarSet.contains r.perm) analysis g analysis (g.rename r) := by
  refine ⟨Graph.sameEdges_rename r hb, rfl, fun _ => rfl, fun _ => rfl, ?_, ?_⟩
  · intro x y x' y' h h' v
    have hmem : r.perm v ∈ y ↔ v ∈ x := Bool.eq_iff_iff.mp (h v)
    have hmem' : r.perm v ∈ y' ↔ v ∈ x' := Bool.eq_iff_iff.mp (h' v)
    rw [Bool.eq_iff_iff]
    show r.perm v ∈ (y'.union y).1 ↔ v ∈ (x'.union x).1
    rw [VarSet.mem_union, VarSet.mem_union, hmem, hmem']
  · intro node
    rw [Graph.stmt?_rename r hb]
    cases g.stmt? node with
    | none => exact .none
    | some s =>
      exact .some fun x y x' y' h h' =>
        .some ((before_rename r h).overwrite VarSet.contains_injective h')

end Liveness

/-! ## Dead code -/

namespace DeadCode

variable {p : Procedure} {g : Graph} (r : Renaming p) {constants constants' : FactTable ConstFact}
  {live live' : FactTable VarSet}

theorem useless?_rename (h : live.Related (Renamed VarSet.contains r.perm) live') (node : Nat)
    (s : Stmt) : useless? live' node (s.rename r.perm) = useless? live node s := by
  unfold useless?
  rw [Stmt.defines_rename, Stmt.rvalue?_rename]
  cases s.defines with
  | none => rfl
  | some v =>
    cases s.rvalue? with
    | none => rfl
    | some e =>
      simp only [Option.map_some]
      rcases rel_cases (h.outs node) with ⟨hx, hy⟩ | ⟨x, y, hx, hy, hxy⟩
      · rw [hx, hy]
      · rw [hx, hy]
        simp only [hxy v, Expr.isPure_rename]

theorem way_rename (h : constants.Related (Renamed ConstFact.get r.perm) constants') (node : Nat)
    (s : Stmt) :
    way (g.rename r) constants' node (s.rename r.perm) = way g constants node s := by
  obtain ⟨i, c⟩ := s
  cases c with
  | branch cond target =>
    simp only [Stmt.rename, Command.rename, way, factAt]
    rcases rel_cases (h.ins node) with ⟨hx, hy⟩ | ⟨x, y, hx, hy, hxy⟩
    · rw [hx, hy]
      rfl
    · rw [hx, hy]
      simp only [bind, Except.bind, Constants.evaluate_rename hxy]
  | switch on cases otherwise =>
    simp only [Stmt.rename, Command.rename, way, factAt]
    rcases rel_cases (h.ins node) with ⟨hx, hy⟩ | ⟨x, y, hx, hy, hxy⟩
    · rw [hx, hy]
      rfl
    · rw [hx, hy]
      simp only [bind, Except.bind, hxy on]
      rfl
  | _ => rfl

theorem visit_rename (hb : Graph.build p = .ok g)
    (hconstants : constants.Related (Renamed ConstFact.get r.perm) constants')
    (hlive : live.Related (Renamed VarSet.contains r.perm) live') (node : Nat) (w : Walk) :
    visit (g.rename r) constants' live' node w = visit g constants live node w := by
  unfold visit
  rw [Graph.stmt?_rename r hb]
  cases g.stmt? node with
  | none => rfl
  | some s =>
    simp only [Option.map_some, useless?_rename r hlive, way_rename r hconstants]
    rfl

theorem walk_rename (hb : Graph.build p = .ok g)
    (hconstants : constants.Related (Renamed ConstFact.get r.perm) constants')
    (hlive : live.Related (Renamed VarSet.contains r.perm) live') (pops : Nat) (w : Walk) :
    walk (g.rename r) constants' live' pops w = walk g constants live pops w := by
  induction pops generalizing w with
  | zero => rfl
  | succ pops ih => simp only [walk, visit_rename r hb hconstants hlive, ih]

theorem detect_rename (hb : Graph.build p = .ok g)
    (hconstants : constants.Related (Renamed ConstFact.get r.perm) constants')
    (hlive : live.Related (Renamed VarSet.contains r.perm) live') :
    (detect (g.rename r) constants' live').result = (detect g constants live).result := by
  have hentry : (g.rename r).entry = g.entry := (Graph.sameEdges_rename r hb).boundary .forward
  have hexit : (g.rename r).exit = g.exit := (Graph.sameEdges_rename r hb).boundary .backward
  have hstart : Walk.start (g.rename r) = Walk.start g := by
    rw [Walk.start, Walk.start, hentry]
    rfl
  have hedges : (g.rename r).edges = g.edges := rfl
  unfold detect
  rw [walk_rename r hb hconstants hlive, hstart, hedges, hexit]
  simp only
  split <;> rfl

theorem analyze_rename (hb : Graph.build p = .ok g)
    (hconstants : (Constants.solve g).facts.Related (Renamed ConstFact.get r.perm)
      (Constants.solve (g.rename r)).facts)
    (hlive : (Liveness.solve g).facts.Related (Renamed VarSet.contains r.perm)
      (Liveness.solve (g.rename r)).facts) :
    ∃ report report' dead, analyze p = .ok report ∧ analyze (p.rename r) = .ok report' ∧
      report.result = .ok dead ∧ report'.result = .ok dead := by
  obtain ⟨log, hlog⟩ := analyzeWith_solved hb Solver.defaultCap Solver.defaultCap
  obtain ⟨log', hlog'⟩ := analyzeWith_solved (Graph.build_rename r hb) Solver.defaultCap
    Solver.defaultCap
  obtain ⟨dead, hdead, -⟩ := detect_spec hb (Constants.solveWithin_sized hb Solver.defaultCap).1
    (Liveness.solveWithin_sized hb Solver.defaultCap).1
  exact ⟨_, _, dead, hlog, hlog', hdead, (detect_rename r hb hconstants hlive).trans hdead⟩

end DeadCode

/-! ## The whole of it -/

/-- Renaming changes neither the edges nor the dead nodes, and in the tables only the names. -/
theorem rename_keeps_results {p : Procedure} {g : Graph} (hb : Graph.build p = .ok g)
    (r : Renaming p) :
    ∃ g', Graph.build (p.rename r) = .ok g' ∧ g'.outTable = g.outTable ∧
      g'.inTable = g.inTable ∧
      (∀ cap, (Constants.solveWithin g cap).Related (Renamed ConstFact.get r.perm)
          (Constants.solveWithin g' cap) ∧
        (Constants.solveWithin g cap).facts.Sized g.size ∧
        (Constants.solveWithin g cap).outcome ≠ .stuck) ∧
      (∀ cap, (Liveness.solveWithin g cap).Related (Renamed VarSet.contains r.perm)
          (Liveness.solveWithin g' cap) ∧
        (Liveness.solveWithin g cap).facts.Sized g.size ∧
        (Liveness.solveWithin g cap).outcome ≠ .stuck) ∧
      ∃ report report' dead, DeadCode.analyze p = .ok report ∧
        DeadCode.analyze (p.rename r) = .ok report' ∧ report.result = .ok dead ∧
        report'.result = .ok dead := by
  have hconstants : ∀ cap, (Constants.solveWithin g cap).Related (Renamed ConstFact.get r.perm)
      (Constants.solveWithin (g.rename r) cap) := by
    intro cap
    rw [Constants.solveWithin, Graph.procedure_of_build hb]
    exact (Constants.inStep_rename r hb).solve cap
  have hlive : ∀ cap, (Liveness.solveWithin g cap).Related (Renamed VarSet.contains r.perm)
      (Liveness.solveWithin (g.rename r) cap) := (Liveness.inStep_rename r hb).solve
  refine ⟨g.rename r, Graph.build_rename r hb, rfl, rfl, ?_, ?_, ?_⟩
  · exact fun cap => ⟨hconstants cap, Constants.solveWithin_sized hb cap⟩
  · exact fun cap => ⟨hlive cap, Liveness.solveWithin_sized hb cap⟩
  · exact DeadCode.analyze_rename r hb (hconstants _).facts (hlive _).facts

theorem quotient_of_divideLate_renamed :
    ∃ r : Renaming Solver.divideLate, r.perm ⟨2⟩ = ⟨0⟩ ∧
      Graph.build Solver.divideLate = .ok Solver.divideLateGraph ∧
      ∃ g' after after', Graph.build (Solver.divideLate.rename r) = .ok g' ∧
        (Constants.solveWithin Solver.divideLateGraph 5).facts.out? 0 = some after ∧
        (Constants.solveWithin g' 5).facts.out? 0 = some after' ∧
        after.get ⟨2⟩ = .nac ∧ after'.get ⟨0⟩ = .nac := by
  have hb : Graph.build Solver.divideLate = .ok Solver.divideLateGraph := rfl
  have hfifth : ((Constants.solveWithin Solver.divideLateGraph 5).facts.out? 0).map (·.get ⟨2⟩) =
      some .nac := by decide +kernel
  let r : Renaming Solver.divideLate := .swap _ ⟨0⟩ ⟨2⟩ (by decide) (by decide)
  have hperm : r.perm ⟨2⟩ = ⟨0⟩ := Equiv.swap_apply_right _ _
  obtain ⟨g', hb', -, -, hconstants, -⟩ := rename_keeps_results hb r
  refine ⟨r, hperm, hb, g', ?_⟩
  rcases rel_cases ((hconstants 5).1.facts.outs 0) with ⟨hnone, -⟩ | ⟨x, y, hx, hy, hxy⟩
  · rw [hnone] at hfifth
    cases hfifth
  · rw [hx] at hfifth
    have hnac : x.get ⟨2⟩ = .nac := Option.some.inj hfifth
    refine ⟨x, y, hb', hx, hy, hnac, ?_⟩
    rw [← hnac, ← hxy ⟨2⟩, hperm]

end FlowFacts
