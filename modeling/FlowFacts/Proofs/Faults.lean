import FlowFacts.Proofs.Graph

/-! # What is wrong with a procedure

`Fault` says what is wrong with one statement, by what is written there. `build` gives a graph
exactly when no statement has a fault. Otherwise it gives the fault of the first statement that
has one.
-/

namespace FlowFacts

theorem bind_eq_error_iff {ε α β : Type} (x : Except ε α) (f : α → Except ε β) (e : ε) :
    x >>= f = .error e ↔ x = .error e ∨ ∃ a, x = .ok a ∧ f a = .error e := by
  cases x with
  | error e' => simp [bind, Except.bind]
  | ok a => simp [bind, Except.bind]

theorem mapM_eq_error_iff {ε α β : Type} (f : α → Except ε β) (l : List α) (e : ε) :
    l.mapM f = .error e ↔ ∃ (i : Nat) (a : α), l[i]? = some a ∧ f a = .error e ∧
      ∀ j < i, ∀ b, l[j]? = some b → ∃ x, f b = .ok x := by
  induction l with
  | nil => simp [pure, Except.pure]
  | cons a l ih =>
    rw [List.mapM_cons, bind_eq_error_iff]
    simp only [bind_eq_error_iff, pure, Except.pure, reduceCtorEq, and_false, exists_false,
      or_false, ih]
    constructor
    · rintro (ha | ⟨x, ha, i, b, hb, hfb, hbefore⟩)
      · exact ⟨0, a, rfl, ha, by simp⟩
      · refine ⟨i + 1, b, hb, hfb, ?_⟩
        intro j hj c hc
        cases j with
        | zero =>
          obtain rfl : a = c := by simpa using hc
          exact ⟨x, ha⟩
        | succ j => exact hbefore j (by omega) c hc
    · rintro ⟨i, b, hb, hfb, hbefore⟩
      cases i with
      | zero =>
        obtain rfl : a = b := by simpa using hb
        exact Or.inl hfb
      | succ i =>
        obtain ⟨x, hx⟩ := hbefore 0 (by omega) a rfl
        exact Or.inr ⟨x, hx, i, b, hb, hfb, fun j hj c hc => hbefore (j + 1) (by omega) c hc⟩

namespace Graph

/-! ## Faults -/

/-- The table has the variable that a command writes and those that it reads. -/
def VarsKnown (p : Procedure) (c : Command) : Prop :=
  ∀ v ∈ c.defines.toList ++ c.uses, v.index < p.numVars

/-- The cases repeat no label, and they jump into the body. -/
structure GoodCases (p : Procedure) (cases : List (Int32 × Nat)) : Prop where
  labels : (cases.map Prod.fst).Nodup
  targets : ∀ c ∈ cases, c.2 < p.size

/-- What is wrong with the command at position `i`, apart from its variables. -/
inductive JumpFault (p : Procedure) (i : Nat) : Command → BuildError → Prop
  | goto {target : Nat} : p.size ≤ target →
      JumpFault p i (.goto target) (.invalidTarget i target)
  | condition {cond : Expr} {target : Nat} :
      (∀ op left right, cond = .binary op left right → op.isRelational = false) →
      JumpFault p i (.branch cond target) (.malformedCondition i)
  | branch {op : Operator} {left right : Var} {target : Nat} :
      op.isRelational = true → p.size ≤ target →
      JumpFault p i (.branch (.binary op left right) target) (.invalidTarget i target)
  /-- The label stands at an earlier case, and nothing is wrong with the earlier ones. -/
  | label {on : Var} {before after : List (Int32 × Nat)} {label : Int32} {target otherwise : Nat} :
      GoodCases p before → label ∈ before.map Prod.fst →
      JumpFault p i (.switch on (before ++ (label, target) :: after) otherwise)
        (.duplicateCase i label)
  | case {on : Var} {before after : List (Int32 × Nat)} {label : Int32} {target otherwise : Nat} :
      GoodCases p before → label ∉ before.map Prod.fst → p.size ≤ target →
      JumpFault p i (.switch on (before ++ (label, target) :: after) otherwise)
        (.invalidTarget i target)
  | otherwise {on : Var} {cases : List (Int32 × Nat)} {otherwise : Nat} :
      GoodCases p cases → p.size ≤ otherwise →
      JumpFault p i (.switch on cases otherwise) (.invalidTarget i otherwise)

/-- What is wrong with the command at position `i`. A variable that is not in the table comes
before everything else, and of several the one that stands first. -/
inductive Fault (p : Procedure) (i : Nat) (c : Command) : BuildError → Prop
  | var {before after : List Var} {v : Var} : c.defines.toList ++ c.uses = before ++ v :: after →
      (∀ u ∈ before, u.index < p.numVars) → p.numVars ≤ v.index → Fault p i c (.unknownVar i v)
  | jump {e : BuildError} : VarsKnown p c → JumpFault p i c e → Fault p i c e

/-- What is wrong with the statement at position `i`. -/
def FaultAt (p : Procedure) (i : Nat) (e : BuildError) : Prop :=
  ∃ c, p.body[i]? = some c ∧ Fault p i c e

/-! ## Checks and faults -/

theorem checkTarget_eq_error_iff (p : Procedure) (i target : Nat) (e : BuildError) :
    checkTarget p i target = .error e ↔ p.size ≤ target ∧ e = .invalidTarget i target := by
  unfold checkTarget
  split
  · simp only [reduceCtorEq, false_iff]
    omega
  · rename_i h
    simp [Nat.le_of_not_lt h, eq_comm]

theorem checkCondition_eq_error_iff (i : Nat) (cond : Expr) (e : BuildError) :
    checkCondition i cond = .error e ↔
      (∀ op left right, cond = .binary op left right → op.isRelational = false) ∧
        e = .malformedCondition i := by
  have hcond : cond.isCondition = false ↔
      ∀ op left right, cond = .binary op left right → op.isRelational = false := by
    cases cond <;> simp [Expr.isCondition]
  unfold checkCondition
  rw [← hcond]
  split
  · rename_i h
    simp [h]
  · rename_i h
    simp [h, @eq_comm _ e]

theorem checkVars_eq_error_iff (p : Procedure) (i : Nat) (c : Command) (e : BuildError) :
    checkVars p ⟨i, c⟩ = .error e ↔ ∃ before v after,
      c.defines.toList ++ c.uses = before ++ v :: after ∧
        (∀ u ∈ before, u.index < p.numVars) ∧ p.numVars ≤ v.index ∧ e = .unknownVar i v := by
  have hfind : ∀ v, (c.defines.toList ++ c.uses).find? (fun v => !p.knows v) = some v ↔
      p.numVars ≤ v.index ∧ ∃ before after, c.defines.toList ++ c.uses = before ++ v :: after ∧
        ∀ u ∈ before, u.index < p.numVars := by
    intro v
    rw [List.find?_eq_some_iff_append]
    simp [Procedure.knows]
  unfold checkVars
  simp only [Stmt.defines, Stmt.uses]
  split
  · rename_i v hv
    constructor
    · intro h
      cases h
      obtain ⟨hunknown, before, after, hlist, hbefore⟩ := (hfind v).mp hv
      exact ⟨before, v, after, hlist, hbefore, hunknown, rfl⟩
    · rintro ⟨before, u, after, hlist, hbefore, hunknown, rfl⟩
      have hu := (hfind u).mpr ⟨hunknown, before, after, hlist, hbefore⟩
      rw [hv, Option.some.injEq] at hu
      rw [hu]
  · rename_i hnone
    simp only [reduceCtorEq, false_iff]
    rintro ⟨before, u, after, hlist, hbefore, hunknown, -⟩
    have hu := (hfind u).mpr ⟨hunknown, before, after, hlist, hbefore⟩
    rw [hnone] at hu
    cases hu

/-- The scan of a switch ends at case `c`, when it has seen some labels before the cases that it
has gone through. -/
structure EndsScan (p : Procedure) (i : Nat) (seen : List Int32) (before : List (Int32 × Nat))
    (c : Int32 × Nat) (e : BuildError) : Prop where
  good : GoodCases p before
  fresh : ∀ b ∈ before, b.1 ∉ seen
  fault : (c.1 ∈ seen ∨ c.1 ∈ before.map Prod.fst) ∧ e = .duplicateCase i c.1 ∨
    ¬ (c.1 ∈ seen ∨ c.1 ∈ before.map Prod.fst) ∧ p.size ≤ c.2 ∧ e = .invalidTarget i c.2

theorem endsScan_nil {p : Procedure} {i : Nat} {seen : List Int32} {c : Int32 × Nat}
    {e : BuildError} : EndsScan p i seen [] c e ↔
      c.1 ∈ seen ∧ e = .duplicateCase i c.1 ∨
        c.1 ∉ seen ∧ p.size ≤ c.2 ∧ e = .invalidTarget i c.2 := by
  constructor
  · intro h
    simpa using h.fault
  · intro h
    exact ⟨⟨by simp, by simp⟩, by simp, by simpa using h⟩

theorem endsScan_cons {p : Procedure} {i : Nat} {seen : List Int32} {b c : Int32 × Nat}
    {before : List (Int32 × Nat)} {e : BuildError} : EndsScan p i seen (b :: before) c e ↔
      b.1 ∉ seen ∧ b.2 < p.size ∧ EndsScan p i (b.1 :: seen) before c e := by
  have hseen : c.1 ∈ b.1 :: seen ∨ c.1 ∈ before.map Prod.fst ↔
      c.1 ∈ seen ∨ c.1 ∈ (b :: before).map Prod.fst := by
    simp only [List.mem_cons, List.map_cons]
    tauto
  constructor
  · intro h
    have htargets := List.forall_mem_cons.mp h.good.targets
    obtain ⟨hb, hlabels, hfresh⟩ := newLabels_cons.mp ⟨h.good.labels, h.fresh⟩
    refine ⟨hb, htargets.1, ⟨hlabels, htargets.2⟩, hfresh, ?_⟩
    rw [hseen]
    exact h.fault
  · rintro ⟨hb, htarget, h⟩
    obtain ⟨hlabels, hfresh⟩ := newLabels_cons.mpr ⟨hb, h.good.labels, h.fresh⟩
    refine ⟨⟨hlabels, List.forall_mem_cons.mpr ⟨htarget, h.good.targets⟩⟩, hfresh, ?_⟩
    rw [← hseen]
    exact h.fault

theorem caseEdges_eq_error_iff (p : Procedure) (i : Nat) (seen : List Int32)
    (cases : List (Int32 × Nat)) (e : BuildError) :
    caseEdges p i seen cases = .error e ↔ ∃ before c after,
      cases = before ++ c :: after ∧ EndsScan p i seen before c e := by
  induction cases generalizing seen with
  | nil => simp [caseEdges]
  | cons b rest ih =>
    have hsplit : (∃ before c after, b :: rest = before ++ c :: after ∧
        EndsScan p i seen before c e) ↔ EndsScan p i seen [] b e ∨
          b.1 ∉ seen ∧ b.2 < p.size ∧ caseEdges p i (b.1 :: seen) rest = .error e := by
      rw [ih]
      constructor
      · rintro ⟨before, c, after, hlist, h⟩
        cases before with
        | nil =>
          cases hlist
          exact Or.inl h
        | cons d before =>
          cases hlist
          obtain ⟨hb, htarget, h⟩ := endsScan_cons.mp h
          exact Or.inr ⟨hb, htarget, before, c, after, rfl, h⟩
      · rintro (h | ⟨hb, htarget, before, c, after, rfl, h⟩)
        · exact ⟨[], b, rest, rfl, h⟩
        · exact ⟨b :: before, c, after, rfl, endsScan_cons.mpr ⟨hb, htarget, h⟩⟩
    obtain ⟨label, target⟩ := b
    rw [hsplit, endsScan_nil, caseEdges]
    split
    · rename_i hseen
      simp [hseen, eq_comm]
    · rename_i hseen
      simp only [bind_eq_error_iff, checkTarget_eq_error_iff, checkTarget_eq_ok_iff, pure,
        Except.pure, reduceCtorEq, and_false, exists_false, or_false, hseen, false_and, false_or,
        not_false_iff, true_and]
      apply or_congr_right
      constructor
      · rintro ⟨t, ⟨ht, rfl⟩, h⟩
        exact ⟨ht, h⟩
      · rintro ⟨ht, h⟩
        exact ⟨target, ⟨ht, rfl⟩, h⟩

theorem caseEdges_ok_iff_goodCases (p : Procedure) (i : Nat) (cases : List (Int32 × Nat))
    (es : List Edge) : caseEdges p i [] cases = .ok es ↔
      GoodCases p cases ∧ es = cases.map (fun c => ⟨i, c.2, .switchCase c.1⟩) := by
  rw [caseEdges_eq_ok_iff]
  constructor
  · rintro ⟨hlabels, -, htargets, hes⟩
    exact ⟨⟨hlabels, htargets⟩, hes⟩
  · rintro ⟨h, hes⟩
    exact ⟨h.labels, by simp, h.targets, hes⟩

theorem jumpFault_switch_iff (p : Procedure) (i : Nat) (on : Var) (cases : List (Int32 × Nat))
    (otherwise : Nat) (e : BuildError) : JumpFault p i (.switch on cases otherwise) e ↔
      (∃ before c after, cases = before ++ c :: after ∧ EndsScan p i [] before c e) ∨
        GoodCases p cases ∧ p.size ≤ otherwise ∧ e = .invalidTarget i otherwise := by
  constructor
  · rintro (_ | _ | _ | ⟨hgood, hlabel⟩ | ⟨hgood, hlabel, htarget⟩ | ⟨hgood, htarget⟩)
    · exact Or.inl ⟨_, _, _, rfl, hgood, by simp, Or.inl ⟨Or.inr hlabel, rfl⟩⟩
    · exact Or.inl ⟨_, _, _, rfl, hgood, by simp, Or.inr ⟨by simpa using hlabel, htarget, rfl⟩⟩
    · exact Or.inr ⟨hgood, htarget, rfl⟩
  · rintro (⟨before, ⟨label, target⟩, after, rfl, hgood, -, h⟩ | ⟨hgood, htarget, rfl⟩)
    · rcases h with ⟨hlabel, rfl⟩ | ⟨hlabel, htarget, rfl⟩
      · exact .label hgood (by simpa using hlabel)
      · exact .case hgood (by simpa using hlabel) htarget
    · exact .otherwise hgood htarget

theorem checkVars_ok_iff_varsKnown (p : Procedure) (i : Nat) (c : Command) (u : Unit) :
    checkVars p ⟨i, c⟩ = .ok u ↔ VarsKnown p c := by
  rw [checkVars_eq_ok_iff]
  simp [VarsKnown, Stmt.defines, Stmt.uses, Procedure.knows]

theorem fault_iff (p : Procedure) (i : Nat) (c : Command) (e : BuildError) :
    Fault p i c e ↔ checkVars p ⟨i, c⟩ = .error e ∨ VarsKnown p c ∧ JumpFault p i c e := by
  rw [checkVars_eq_error_iff]
  constructor
  · rintro (⟨hlist, hbefore, hunknown⟩ | ⟨hknown, h⟩)
    · exact Or.inl ⟨_, _, _, hlist, hbefore, hunknown, rfl⟩
    · exact Or.inr ⟨hknown, h⟩
  · rintro (⟨before, v, after, hlist, hbefore, hunknown, rfl⟩ | ⟨hknown, h⟩)
    · exact .var hlist hbefore hunknown
    · exact .jump hknown h

theorem edgesOf_eq_error_iff (p : Procedure) (i : Nat) (c : Command) (e : BuildError) :
    edgesOf p ⟨i, c⟩ = .error e ↔ Fault p i c e := by
  rw [fault_iff, edgesOf, bind_eq_error_iff]
  simp only [checkVars_ok_iff_varsKnown, exists_const]
  refine or_congr_right (and_congr_right fun _ => ?_)
  cases c with
  | goto target =>
    simp only [bind_eq_error_iff, checkTarget_eq_error_iff, pure, Except.pure, reduceCtorEq,
      and_false, exists_false, or_false]
    constructor
    · rintro ⟨h, rfl⟩
      exact .goto h
    · rintro ⟨h⟩
      exact ⟨h, rfl⟩
  | branch cond target =>
    simp only [bind_eq_error_iff, checkTarget_eq_error_iff, checkCondition_eq_error_iff,
      checkCondition_eq_ok_iff, exists_const, pure, Except.pure, reduceCtorEq, and_false,
      or_false]
    constructor
    · rintro (⟨h, rfl⟩ | ⟨hcond, h, rfl⟩)
      · exact .condition h
      · cases cond with
        | binary op left right => exact .branch hcond h
        | _ => cases hcond
    · rintro (_ | h | ⟨hcond, h⟩)
      · exact Or.inl ⟨h, rfl⟩
      · exact Or.inr ⟨hcond, h, rfl⟩
  | switch on cases otherwise =>
    simp only [bind_eq_error_iff, checkTarget_eq_error_iff, caseEdges_eq_error_iff,
      caseEdges_ok_iff_goodCases, jumpFault_switch_iff, pure, Except.pure, reduceCtorEq, and_false,
      exists_false, or_false]
    refine or_congr_right ?_
    constructor
    · rintro ⟨es, ⟨hgood, -⟩, htarget⟩
      exact ⟨hgood, htarget⟩
    · rintro ⟨hgood, htarget⟩
      exact ⟨_, ⟨hgood, rfl⟩, htarget⟩
  | nop | assign place value | call result method args | ret value =>
    simp only [pure, Except.pure, reduceCtorEq, false_iff]
    rintro ⟨⟩

/-! ## The first fault -/

theorem exists_ok_iff_not_fault (p : Procedure) (i : Nat) (c : Command) :
    (∃ es, edgesOf p ⟨i, c⟩ = .ok es) ↔ ∀ e, ¬ Fault p i c e := by
  simp only [← edgesOf_eq_error_iff]
  cases edgesOf p ⟨i, c⟩ with
  | error e => simp
  | ok es => simp

theorem FaultAt.unique {p : Procedure} {i : Nat} {e e' : BuildError} (h : FaultAt p i e)
    (h' : FaultAt p i e') : e = e' := by
  obtain ⟨c, hc, hfault⟩ := h
  obtain ⟨c', hc', hfault'⟩ := h'
  obtain rfl : c = c' := Option.some.inj (hc.symm.trans hc')
  rw [← edgesOf_eq_error_iff] at hfault hfault'
  exact Except.error.inj (hfault.symm.trans hfault')

theorem build_eq_error_iff (p : Procedure) (e : BuildError) :
    build p = .error e ↔ ∃ i, FaultAt p i e ∧ ∀ j < i, ∀ e', ¬ FaultAt p j e' := by
  have hstmts : ∀ (i : Nat) (s : Stmt), p.stmts[i]? = some s ↔
      ∃ c, p.body[i]? = some c ∧ s = ⟨i, c⟩ := by
    intro i s
    rw [stmts_getElem?, Option.map_eq_some_iff]
    simp only [eq_comm]
  rw [build, bind_eq_error_iff, mapM_eq_error_iff]
  simp only [hstmts, pure, Except.pure, reduceCtorEq, and_false, exists_false, or_false]
  refine exists_congr fun i => ?_
  constructor
  · rintro ⟨_, ⟨c, hc, rfl⟩, herror, hbefore⟩
    refine ⟨⟨c, hc, (edgesOf_eq_error_iff p i c e).mp herror⟩, ?_⟩
    rintro j hj e' ⟨c', hc', hfault⟩
    exact (exists_ok_iff_not_fault p j c').mp (hbefore j hj _ ⟨c', hc', rfl⟩) e' hfault
  · rintro ⟨⟨c, hc, hfault⟩, hbefore⟩
    refine ⟨_, ⟨c, hc, rfl⟩, (edgesOf_eq_error_iff p i c e).mpr hfault, ?_⟩
    rintro j hj _ ⟨c', hc', rfl⟩
    exact (exists_ok_iff_not_fault p j c').mpr fun e' h => hbefore j hj e' ⟨c', hc', h⟩

theorem exists_build_iff (p : Procedure) :
    (∃ g, build p = .ok g) ↔ ∀ i e, ¬ FaultAt p i e := by
  constructor
  · rintro ⟨g, hb⟩ i e ⟨c, hc, hfault⟩
    have hmem : (⟨i, c⟩ : Stmt) ∈ p.stmts := mem_stmts.mpr (by simp [Procedure.stmt?, hc])
    have hwell := ((build_eq_ok_iff p g).mp hb).1 _ hmem
    have hok := (edgesOf_eq_ok_iff p ⟨i, c⟩ _).mpr ⟨hwell, rfl⟩
    exact (exists_ok_iff_not_fault p i c).mp ⟨_, hok⟩ e hfault
  · intro h
    cases hb : build p with
    | ok g => exact ⟨g, rfl⟩
    | error e =>
      obtain ⟨i, hfault, -⟩ := (build_eq_error_iff p e).mp hb
      exact absurd hfault (h i e)

/-- What is refused is refused with the fault of the first statement that has one. -/
theorem build_finds_first_fault (p : Procedure) :
    (∀ i e e', FaultAt p i e → FaultAt p i e' → e = e') ∧
    ((∃ g, build p = .ok g) ↔ ∀ i e, ¬ FaultAt p i e) ∧
    ∀ e, build p = .error e ↔ ∃ i, FaultAt p i e ∧ ∀ j < i, ∀ e', ¬ FaultAt p j e' :=
  ⟨fun _ _ _ h h' => h.unique h', exists_build_iff p, build_eq_error_iff p⟩

/-- The second case jumps out of the body, before the third one repeats a label. -/
example : build ⟨#[⟨"x", .int⟩], [], #[.nop, .switch ⟨0⟩ [(1, 0), (2, 9), (1, 0)] 8,
    .branch (.var ⟨4⟩) 7], by simp⟩ = .error (.invalidTarget 1 9) := rfl

end Graph

end FlowFacts
