import FlowFacts.Proofs.DeadCode

/-! # Knowing less finds less dead code

When less is known of the constants, edges open and none close, so the walk reaches more nodes. The
assignments it reaches for the first time may be useless, but they were dead before as well.
-/

namespace FlowFacts

/-! ## Facts that say less -/

/-- The second fact says the same of each variable as the first one, or that it is no constant. -/
def ConstFact.Coarsens (f f' : ConstFact) : Prop := ∀ v, f'.get v = f.get v ∨ f'.get v = .nac

theorem ConstFact.Coarsens.get {f f' : ConstFact} (h : f.Coarsens f') {v : Var} {n : Int32}
    (hv : f'.get v = .constant n) : f.get v = .constant n := by
  rcases h v with hsame | hnac
  · rw [← hsame, hv]
  · rw [hnac] at hv
    cases hv

theorem ConstFact.Coarsens.evaluate {f f' : ConstFact} (h : f.Coarsens f') {e : Expr} {n : Int32}
    (he : Constants.evaluate e f' = .constant n) : Constants.evaluate e f = .constant n := by
  cases e with
  | literal k => exact he
  | var v => exact h.get he
  | binary op left right =>
    obtain ⟨a, b, ha, hb, hn⟩ := Constants.combine_eq_constant_iff.mp he
    exact Constants.combine_eq_constant_iff.mpr ⟨a, b, h.get ha, h.get hb, hn⟩
  | neg _ | alloc _ | cast _ _ | instanceOf _ _ | field _ _ | element _ _ | arrayLength _ => cases he

namespace DeadCode

theorem Opens.mono {f f' : ConstFact} (h : f.Coarsens f') {c : Command} {kind : EdgeKind}
    (hopen : Opens f c kind) : Opens f' c kind := by
  cases c with
  | branch cond _ => exact ⟨fun ht => hopen.1 (h.evaluate ht), fun hf => hopen.2 (h.evaluate hf)⟩
  | switch on cases _ => exact fun n hn => hopen n (h.get hn)
  | nop | assign _ _ | goto _ | call _ _ _ | ret _ => trivial

theorem Useless.anti {after after' : VarSet} (h : ∀ v ∈ after, v ∈ after') {s : Stmt}
    (hs : Useless after' s) : Useless after s := by
  obtain ⟨v, e, hcommand, hv, hpure⟩ := hs
  exact ⟨v, e, hcommand, fun hlive => hv (h v hlive), hpure⟩

/-! ## Tables that say less -/

/-- The second tables say less than the first ones at every node: they know fewer constants before
it, and have more variables live after it. -/
structure Coarser (g : Graph) (constants constants' : FactTable ConstFact)
    (live live' : FactTable VarSet) : Prop where
  constants : ∀ node f f', node < g.size → constants.in? node = some f →
    constants'.in? node = some f' → f.Coarsens f'
  live : ∀ node after after', node < g.size → live.out? node = some after →
    live'.out? node = some after' → ∀ v ∈ after, v ∈ after'

section Coarser

variable {p : Procedure} {g : Graph} {constants constants' : FactTable ConstFact}
  {live live' : FactTable VarSet}

theorem OpenEdge.mono (h : Coarser g constants constants' live live')
    (hcov : Covered g constants' live') {node : Nat} (hlt : node < g.size) {e : Edge}
    (he : OpenEdge g constants node e) : OpenEdge g constants' node e := by
  obtain ⟨s, f, es, hs, hf, hes, hmem, hopen⟩ := he
  obtain ⟨f', hf'⟩ := hcov.before node hlt
  exact ⟨s, f', es, hs, hf', hes, hmem, hopen.mono (h.constants node f f' hlt hf hf')⟩

theorem Reachable.mono (hb : Graph.build p = .ok g)
    (h : Coarser g constants constants' live live') (hcov : Covered g constants' live') {node : Nat}
    (hreach : Reachable g constants node) : Reachable g constants' node := by
  induction hreach with
  | entry => exact .entry
  | edge hsource he ih => exact .edge ih (he.mono h hcov (hsource.lt_size hb))

theorem UselessAt.anti (h : Coarser g constants constants' live live')
    (hcov : Covered g constants live) {node : Nat} (hlt : node < g.size)
    (huseless : UselessAt g live' node) : UselessAt g live node := by
  obtain ⟨s, after', hs, hafter', huseless⟩ := huseless
  obtain ⟨after, hafter⟩ := hcov.after node hlt
  exact ⟨s, after, hs, hafter, huseless.anti (h.live node after after' hlt hafter hafter')⟩

/-- Tables that say less never make a node dead. -/
theorem detect_subset_of_coarser (hb : Graph.build p = .ok g) (hcov : Covered g constants live)
    (hcov' : Covered g constants' live') (h : Coarser g constants constants' live live') :
    ∃ dead dead', (detect g constants live).result = .ok dead ∧
      (detect g constants' live').result = .ok dead' ∧ dead' ⊆ dead := by
  obtain ⟨dead, hdead, hmem⟩ := detect_covered hb hcov
  obtain ⟨dead', hdead', hmem'⟩ := detect_covered hb hcov'
  refine ⟨dead, dead', hdead, hdead', ?_⟩
  intro n hn
  obtain ⟨hlt, hexit, huseless⟩ := (hmem' n).mp hn
  -- What the first walk reaches the second one reaches too, and it has found it useless.
  refine (hmem n).mpr ⟨hlt, hexit, fun hreach => ?_⟩
  exact (huseless (hreach.mono hb h hcov')).anti h hcov hlt

end Coarser

/-- Once `y` is no constant, the walk comes to the last two statements and keeps the assignment. -/
theorem detect_pickOne_subset :
    ∃ g constants constants' live live', Graph.build pickOne = .ok g ∧
      Covered g constants live ∧ Covered g constants' live' ∧
      Coarser g constants constants' live live' ∧
      (detect g constants live).result = .ok [1, 3, 4] ∧
      (detect g constants' live').result = .ok [1] ∧ [1] ⊆ [1, 3, 4] := by
  let g := Graph.link pickOne (pickOne.stmts.map (Graph.plainEdges pickOne))
  let f := ConstFact.ofList [(⟨0⟩, .constant 1), (⟨1⟩, .constant 1)]
  let constants := FactTable.filled g.size f
  let constants' := FactTable.filled g.size (f.update ⟨1⟩ .nac).1
  let live := FactTable.filled g.size VarSet.empty
  let live' := FactTable.filled g.size (VarSet.empty.insert ⟨1⟩).1
  have hb : Graph.build pickOne = .ok g := rfl
  have hcov : Covered g constants live :=
    covered_of_sized (FactTable.sized_filled _ _) (FactTable.sized_filled _ _)
  have hcov' : Covered g constants' live' :=
    covered_of_sized (FactTable.sized_filled _ _) (FactTable.sized_filled _ _)
  have h : Coarser g constants constants' live live' := by
    constructor
    · intro node f₁ f₂ hlt hf₁ hf₂ v
      obtain rfl := Option.some.inj ((FactTable.in?_filled hlt _).symm.trans hf₁)
      obtain rfl := Option.some.inj ((FactTable.in?_filled hlt _).symm.trans hf₂)
      rw [ConstFact.get_update]
      split
      · exact Or.inr rfl
      · exact Or.inl rfl
    · intro node after after' hlt hafter hafter' v hv
      obtain rfl := Option.some.inj ((FactTable.out?_filled hlt _).symm.trans hafter)
      exact absurd hv (VarSet.not_mem_empty v)
  have hdead : (detect g constants live).result.toOption = some [1, 3, 4] := by decide +kernel
  have hdead' : (detect g constants' live').result.toOption = some [1] := by decide +kernel
  obtain ⟨dead, dead', hresult, hresult', hsub⟩ := detect_subset_of_coarser hb hcov hcov' h
  rw [hresult] at hdead
  rw [hresult'] at hdead'
  obtain rfl : dead = [1, 3, 4] := Option.some.inj hdead
  obtain rfl : dead' = [1] := Option.some.inj hdead'
  exact ⟨g, constants, constants', live, live', hb, hcov, hcov', h, hresult,
    hresult', hsub⟩

end DeadCode

end FlowFacts
