import FlowFacts.Proofs.Graph

/-! # Runs of a procedure

What a procedure does when it runs. A run stands at a node with a store. It reads the
variables of the statement, computes a value, stores it and goes on along an edge. What the
analyses know nothing of may have any value: the results of calls, fields, array elements,
casts and so on.
-/

namespace FlowFacts

/-! ## Stores -/

/-- What each variable holds. One that has not been assigned yet holds nothing. -/
def Store := Var → Option Int32

namespace Store

def Initial (p : Procedure) (σ : Store) : Prop := ∀ v, (σ v).isSome = true ↔ v ∈ p.params

def uniform (p : Procedure) (n : Int32) : Store := fun v => if v ∈ p.params then some n else none

theorem initial_uniform (p : Procedure) (n : Int32) : (uniform p n).Initial p := by
  intro v
  unfold uniform
  split <;> simp_all

/-- Stores a value in a variable, if there are both. -/
def write (σ : Store) : Option Var → Option Int32 → Store
  | some v, some n => fun u => if u = v then some n else σ u
  | _, _ => σ

theorem write_ne {σ : Store} {target : Option Var} {u : Var} (h : target ≠ some u)
    (result : Option Int32) : σ.write target result u = σ u := by
  cases target with
  | none => rfl
  | some v =>
    cases result with
    | none => rfl
    | some n =>
      have hne : u ≠ v := fun he => h (he ▸ rfl)
      exact if_neg hne

theorem write_eq (σ : Store) (v : Var) (n : Int32) : σ.write (some v) (some n) v = some n :=
  if_pos rfl

end Store

/-! ## What a statement does -/

theorem Operator.truth_cases {op : Operator} {a b n : Int32} (hop : op.isRelational = true)
    (h : op.eval? a b = some n) : n = 1 ∨ n = 0 := by
  cases op <;> simp only [isRelational, Bool.false_eq_true] at hop <;>
    simp only [eval?, truth, Option.some.injEq] at h <;> subst h <;> split <;> simp

namespace Expr

def MayBe (σ : Store) : Expr → Int32 → Prop
  | literal k, n => n = k
  | var v, n => σ v = some n
  | binary op left right, n =>
    ∃ a b, σ left = some a ∧ σ right = some b ∧ op.eval? a b = some n
  | neg _, _ | alloc _, _ | cast _ _, _ | instanceOf _ _, _ | field _ _, _ | element _ _, _
  | arrayLength _, _ => True

def Faults (σ : Store) : Expr → Prop
  | binary op _ right => op.divides = true ∧ σ right = some 0
  | _ => False

theorem mayBe_congr {σ τ : Store} {e : Expr} (h : ∀ v ∈ e.uses, σ v = τ v) (n : Int32) :
    e.MayBe σ n ↔ e.MayBe τ n := by
  cases e with
  | var v => simp [MayBe, h v (by simp [uses])]
  | binary op left right => simp [MayBe, h left (by simp [uses]), h right (by simp [uses])]
  | _ => rfl

theorem faults_congr {σ τ : Store} {e : Expr} (h : ∀ v ∈ e.uses, σ v = τ v) :
    e.Faults σ ↔ e.Faults τ := by
  cases e with
  | binary op left right => simp [Faults, h right (by simp [uses])]
  | _ => rfl

theorem exists_mayBe {σ : Store} {e : Expr} (hready : ∀ v ∈ e.uses, (σ v).isSome = true)
    (hf : ¬ e.Faults σ) : ∃ n, e.MayBe σ n := by
  cases e with
  | literal k => exact ⟨k, rfl⟩
  | var v => exact ⟨_, Option.some_get (hready v (by simp [uses])) |>.symm⟩
  | binary op left right =>
    obtain ⟨a, ha⟩ := Option.isSome_iff_exists.mp (hready left (by simp [uses]))
    obtain ⟨b, hb⟩ := Option.isSome_iff_exists.mp (hready right (by simp [uses]))
    cases hv : op.eval? a b with
    | some n => exact ⟨n, a, b, ha, hb, hv⟩
    | none =>
      obtain ⟨hdiv, rfl⟩ := Operator.eval?_eq_none_iff.mp hv
      exact absurd ⟨hdiv, hb⟩ hf
  | _ => exact ⟨0, trivial⟩

theorem not_faults_of_isPure {σ : Store} {e : Expr} (h : e.isPure = true) : ¬ e.Faults σ := by
  cases e with
  | binary op left right =>
    rintro ⟨hdiv, -⟩
    simp [isPure, hdiv] at h
  | _ => exact id

theorem condition_cases {σ : Store} {e : Expr} {n : Int32} (hc : e.isCondition = true)
    (h : e.MayBe σ n) : n = 1 ∨ n = 0 := by
  cases e with
  | binary op left right =>
    obtain ⟨a, b, -, -, hv⟩ := h
    exact Operator.truth_cases hc hv
  | _ => simp [isCondition] at hc

end Expr

namespace Command

/-- The values that a command may compute. One that computes nothing has none. -/
def Yields (σ : Store) : Command → Option Int32 → Prop
  | assign _ value, result => ∃ n, value.MayBe σ n ∧ result = some n
  | call target _ _, result => result.isSome = target.isSome
  | nop, result | goto _, result | branch _ _, result | switch _ _ _, result | ret _, result =>
    result = none

theorem Yields.exists_of_defines {σ : Store} {c : Command} {result : Option Int32} {v : Var}
    (h : c.Yields σ result) (hdef : c.defines = some v) : ∃ n, result = some n := by
  cases c with
  | assign place value =>
    obtain ⟨n, -, rfl⟩ := h
    exact ⟨n, rfl⟩
  | call target method args =>
    obtain rfl : target = some v := hdef
    exact Option.isSome_iff_exists.mp h
  | nop | goto _ | branch _ _ | switch _ _ _ | ret _ => cases hdef

def Takes (σ : Store) : Command → EdgeKind → Prop
  | branch cond _, kind => kind = .ifTrue ∧ cond.MayBe σ 1 ∨ kind = .ifFalse ∧ cond.MayBe σ 0
  | switch on cases _, kind => ∃ n, σ on = some n ∧
      (kind = .switchCase n ∨ kind = .switchDefault ∧ n ∉ cases.map Prod.fst)
  | nop, _ | assign _ _, _ | goto _, _ | call _ _ _, _ | ret _, _ => True

def Faults (σ : Store) (c : Command) : Prop := ∃ e, c.rvalue? = some e ∧ e.Faults σ

/-! What a command does depends on the variables it reads only. -/

section Congr

variable {σ τ : Store} {c : Command}

theorem yields_congr (h : ∀ v ∈ c.uses, σ v = τ v) (result : Option Int32) :
    c.Yields σ result ↔ c.Yields τ result := by
  cases c with
  | assign place value =>
    have hvalue := Expr.mayBe_congr fun v hv => h v (List.mem_append_left _ hv)
    simp only [Yields, hvalue]
  | _ => rfl

theorem takes_congr (h : ∀ v ∈ c.uses, σ v = τ v) (kind : EdgeKind) :
    c.Takes σ kind ↔ c.Takes τ kind := by
  cases c with
  | branch cond target => simp only [Takes, Expr.mayBe_congr h]
  | switch on cases otherwise => simp only [Takes, h on (List.mem_singleton.mpr rfl)]
  | _ => rfl

theorem faults_congr (h : ∀ v ∈ c.uses, σ v = τ v) : c.Faults σ ↔ c.Faults τ := by
  cases c with
  | assign place value =>
    have hvalue := Expr.faults_congr fun v hv => h v (List.mem_append_left _ hv)
    simp [Faults, rvalue?, hvalue]
  | _ => simp [Faults, rvalue?]

end Congr

end Command

/-! ## Runs -/

/-- Where a run stands, before it executes the node. -/
structure Moment where
  node : Nat
  store : Store

/-- What can be seen of a step: the node, the values it read and the value it computed. -/
structure Action where
  node : Nat
  reads : List (Option Int32)
  result : Option Int32
deriving DecidableEq

def Ready (σ : Store) (s : Stmt) : Prop := ∀ v ∈ s.uses, (σ v).isSome = true

instance (σ : Store) (s : Stmt) : Decidable (Ready σ s) :=
  inferInstanceAs (Decidable (∀ v ∈ s.uses, (σ v).isSome = true))

theorem ready_congr {σ τ : Store} {s : Stmt} (h : ∀ v ∈ s.uses, σ v = τ v) :
    Ready σ s ↔ Ready τ s := by
  unfold Ready
  exact forall₂_congr fun v hv => by rw [h v hv]

/-- One step of a run. A statement that is not ready is stuck. -/
inductive Step (g : Graph) : Moment → Action → Moment → Prop
  | mk {node : Nat} {σ : Store} {s : Stmt} {result : Option Int32} {es : List Edge} {e : Edge} :
      g.stmt? node = some s → Ready σ s → s.command.Yields σ result →
      g.outEdges? node = some es → e ∈ es → s.command.Takes σ e.kind →
      Step g ⟨node, σ⟩ ⟨node, s.uses.map σ, result⟩ ⟨e.target, σ.write s.defines result⟩

/-- A run from a moment, with what it did and where it stands now. -/
inductive Run (g : Graph) (m₀ : Moment) : List Action → Moment → Prop
  | start : Run g m₀ [] m₀
  | step {trace : List Action} {m m' : Moment} {a : Action} :
      Run g m₀ trace m → Step g m a m' → Run g m₀ (trace ++ [a]) m'

def Stuck (g : Graph) (m : Moment) : Prop := ∃ s, g.stmt? m.node = some s ∧ ¬ Ready m.store s

def Faulty (g : Graph) (m : Moment) : Prop :=
  ∃ s, g.stmt? m.node = some s ∧ Ready m.store s ∧ s.command.Faults m.store

theorem Step.follows {g : Graph} {m m' : Moment} {a : Action} (h : Step g m a m') :
    g.Follows m.node m'.node := by
  cases h with
  | mk _ _ _ hes he _ => exact ⟨_, hes, _, he, rfl⟩

theorem Step.of_single_edge {g : Graph} {node : Nat} {σ : Store} {s : Stmt} {e : Edge} {a : Action}
    {m : Moment} (h : Step g ⟨node, σ⟩ a m) (hs : g.stmt? node = some s)
    (hes : g.outEdges? node = some [e]) :
    ∃ result, s.command.Yields σ result ∧ a = ⟨node, s.uses.map σ, result⟩ ∧
      m = ⟨e.target, σ.write s.defines result⟩ := by
  cases h with
  | mk hs' _ hyields hes' he _ =>
    obtain rfl := Option.some.inj (hs.symm.trans hs')
    obtain rfl := Option.some.inj (hes.symm.trans hes')
    obtain rfl := List.mem_singleton.mp he
    exact ⟨_, hyields, rfl, rfl⟩

theorem Step.transport {g g' : Graph} {node : Nat} {σ τ : Store} {s : Stmt} {a : Action}
    {m : Moment} (h : Step g ⟨node, σ⟩ a m) (hs : g.stmt? node = some s)
    (hs' : g'.stmt? node = some s) (hout : g'.outEdges? node = g.outEdges? node)
    (hagree : ∀ v ∈ s.uses, σ v = τ v) :
    Step g' ⟨node, τ⟩ a ⟨m.node, τ.write s.defines a.result⟩ ∧
      m.store = σ.write s.defines a.result ∧ s.command.Yields σ a.result := by
  cases h with
  | mk hs₀ hready hyields hes he htakes =>
    obtain rfl := Option.some.inj (hs₀.symm.trans hs)
    refine ⟨?_, rfl, hyields⟩
    rw [List.map_congr_left hagree]
    exact .mk hs' ((ready_congr hagree).mp hready) ((Command.yields_congr hagree _).mp hyields)
      (hout.trans hes) he ((Command.takes_congr hagree _).mp htakes)

section Progress

variable {p : Procedure} {g : Graph}

theorem Run.lt_size (hb : Graph.build p = .ok g) {m₀ m : Moment} {trace : List Action}
    (hm : m₀.node < g.size) (h : Run g m₀ trace m) : m.node < g.size := by
  cases h with
  | start => exact hm
  | step _ hstep => exact (hstep.follows.bounds hb).2.1

theorem exists_yields {s : Stmt} {σ : Store} (hready : Ready σ s) (hf : ¬ s.command.Faults σ) :
    ∃ result, s.command.Yields σ result := by
  obtain ⟨i, c⟩ := s
  cases c with
  | assign place value =>
    have hnofault : ¬ value.Faults σ := fun h => hf ⟨value, rfl, h⟩
    have huses : ∀ v ∈ value.uses, (σ v).isSome = true :=
      fun v hv => hready v (List.mem_append_left _ hv)
    obtain ⟨n, hn⟩ := Expr.exists_mayBe huses hnofault
    exact ⟨some n, n, hn, rfl⟩
  | call result method args => exact ⟨result.map fun _ => 0, Option.isSome_map⟩
  | nop | goto _ | branch _ _ | switch _ _ _ | ret _ => exact ⟨none, rfl⟩

theorem exists_takes {s : Stmt} {σ : Store} (hw : Graph.WellFormed p s) (hready : Ready σ s) :
    ∃ e ∈ Graph.plainEdges p s, s.command.Takes σ e.kind := by
  obtain ⟨i, c⟩ := s
  cases c with
  | branch cond target =>
    have hcond : cond.isCondition = true := hw.jumps.1
    have hnofault : ¬ cond.Faults σ := by
      cases cond with
      | binary op left right =>
        rintro ⟨hdiv, -⟩
        cases op <;> simp [Operator.divides, Expr.isCondition, Operator.isRelational] at hdiv hcond
      | _ => exact id
    obtain ⟨n, hn⟩ := Expr.exists_mayBe hready hnofault
    rcases Expr.condition_cases hcond hn with rfl | rfl
    · exact ⟨⟨i, target, .ifTrue⟩, by simp [Graph.plainEdges], Or.inl ⟨rfl, hn⟩⟩
    · exact ⟨⟨i, Graph.next p i, .ifFalse⟩, by simp [Graph.plainEdges], Or.inr ⟨rfl, hn⟩⟩
  | switch on cases otherwise =>
    obtain ⟨n, hn⟩ := Option.isSome_iff_exists.mp (hready on (by simp [Stmt.uses, Command.uses]))
    by_cases hmem : n ∈ cases.map Prod.fst
    · obtain ⟨c, hc, rfl⟩ := List.mem_map.mp hmem
      exact ⟨⟨i, c.2, .switchCase c.1⟩,
        List.mem_append_left _ (List.mem_map.mpr ⟨c, hc, rfl⟩), c.1, hn, Or.inl rfl⟩
    · exact ⟨⟨i, otherwise, .switchDefault⟩, by simp [Graph.plainEdges], n, hn,
        Or.inr ⟨rfl, hmem⟩⟩
  | nop => exact ⟨⟨i, Graph.next p i, .fallThrough⟩, List.mem_singleton.mpr rfl, trivial⟩
  | assign place value =>
    exact ⟨⟨i, Graph.next p i, .fallThrough⟩, List.mem_singleton.mpr rfl, trivial⟩
  | call result method args =>
    exact ⟨⟨i, Graph.next p i, .fallThrough⟩, List.mem_singleton.mpr rfl, trivial⟩
  | goto target => exact ⟨⟨i, target, .goto⟩, List.mem_singleton.mpr rfl, trivial⟩
  | ret value => exact ⟨⟨i, p.size + 1, .ret⟩, List.mem_singleton.mpr rfl, trivial⟩

theorem exists_step (hb : Graph.build p = .ok g) {m : Moment} (hn : m.node < g.size)
    (hexit : m.node ≠ g.exit) (hstuck : ¬ Stuck g m) (hfault : ¬ Faulty g m) :
    ∃ a m', Step g m a m' := by
  obtain ⟨node, σ⟩ := m
  obtain ⟨s, hs⟩ := Graph.stmt?_of_lt hb hn
  have hready : Ready σ s := by
    by_contra hnot
    exact hstuck ⟨s, hs, hnot⟩
  obtain ⟨result, hresult⟩ : ∃ result, s.command.Yields σ result :=
    exists_yields hready fun hf => hfault ⟨s, hs, hready, hf⟩
  obtain ⟨es, hes, e, he, htakes⟩ : ∃ es, g.outEdges? node = some es ∧
      ∃ e ∈ es, s.command.Takes σ e.kind := by
    rcases Graph.stmt?_cases hb hs with ⟨rfl | rfl, rfl⟩ | ⟨-, -, hp⟩
    · exact ⟨_, Graph.outEdges_entry hb, _, List.mem_singleton.mpr rfl, trivial⟩
    · exact absurd rfl hexit
    · exact ⟨_, Graph.outEdges_stmt hb hp,
        exists_takes (Graph.wellFormed_of_stmt? hb hs) hready⟩
  exact ⟨_, _, Step.mk hs hready hresult hes he htakes⟩

end Progress

end FlowFacts
