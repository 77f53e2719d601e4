import FlowFacts.Graph.Build
import Mathlib.Data.List.Nodup
import Mathlib.Algebra.BigOperators.Fin

/-! # The graph of a procedure

`build` succeeds exactly on well-formed procedures, and then each statement has the edges of
`plainEdges`. The two tables of a built graph hold the same edges.
-/

namespace FlowFacts

theorem bind_eq_ok_iff {ε α β : Type} (x : Except ε α) (f : α → Except ε β) (b : β) :
    x >>= f = .ok b ↔ ∃ a, x = .ok a ∧ f a = .ok b := by
  cases x with
  | error e => simp [bind, Except.bind]
  | ok a => simp [bind, Except.bind]

theorem mapM_eq_ok_iff {ε α β : Type} {f : α → Except ε β} {P : α → Prop} {h : α → β}
    (hf : ∀ a b, f a = .ok b ↔ P a ∧ b = h a) (l : List α) (bs : List β) :
    l.mapM f = .ok bs ↔ (∀ a ∈ l, P a) ∧ bs = l.map h := by
  induction l generalizing bs with
  | nil => simp [pure, Except.pure, eq_comm]
  | cons a l ih =>
    rw [List.mapM_cons, bind_eq_ok_iff]
    simp only [bind_eq_ok_iff, hf, ih, pure, Except.pure, Except.ok.injEq, List.forall_mem_cons,
      List.map_cons]
    constructor
    · rintro ⟨_, ⟨ha, rfl⟩, _, ⟨hl, rfl⟩, rfl⟩
      exact ⟨⟨ha, hl⟩, rfl⟩
    · rintro ⟨⟨ha, hl⟩, rfl⟩
      exact ⟨_, ⟨ha, rfl⟩, _, ⟨hl, rfl⟩, rfl⟩

namespace Graph

/-! ## Well-formed statements -/

/-- The edges that leave a statement, with no check of its jumps. -/
def plainEdges (p : Procedure) (s : Stmt) : List Edge :=
  match s.command with
  | .goto target => [⟨s.index, target, .goto⟩]
  | .branch _ target => [⟨s.index, target, .ifTrue⟩, ⟨s.index, next p s.index, .ifFalse⟩]
  | .switch _ cases otherwise =>
    cases.map (fun c => ⟨s.index, c.2, .switchCase c.1⟩)
      ++ [⟨s.index, otherwise, .switchDefault⟩]
  | .ret _ => [⟨s.index, p.size + 1, .ret⟩]
  | .nop | .assign _ _ | .call _ _ _ => [⟨s.index, next p s.index, .fallThrough⟩]

/-- The jumps of a command end in the body, a condition compares, and no label is repeated. -/
def GoodJumps (p : Procedure) : Command → Prop
  | .goto target => target < p.size
  | .branch cond target => cond.isCondition = true ∧ target < p.size
  | .switch _ cases otherwise =>
    (cases.map Prod.fst).Nodup ∧ (∀ c ∈ cases, c.2 < p.size) ∧ otherwise < p.size
  | .nop | .assign _ _ | .call _ _ _ | .ret _ => True

/-- What a statement needs to have edges. -/
structure WellFormed (p : Procedure) (s : Stmt) : Prop where
  known : ∀ v ∈ s.defines.toList ++ s.uses, p.knows v = true
  jumps : GoodJumps p s.command

theorem checkVars_eq_ok_iff (p : Procedure) (s : Stmt) :
    checkVars p s = .ok () ↔ ∀ v ∈ s.defines.toList ++ s.uses, p.knows v = true := by
  unfold checkVars
  split
  · rename_i v hv
    have hmem := List.mem_of_find?_eq_some hv
    have hno := List.find?_some hv
    simp only [reduceCtorEq, false_iff]
    intro h
    simp [h v hmem] at hno
  · rename_i hnone
    rw [List.find?_eq_none] at hnone
    simp only [true_iff]
    intro v hv
    simpa using hnone v hv

theorem checkTarget_eq_ok_iff (p : Procedure) (i target t : Nat) :
    checkTarget p i target = .ok t ↔ target < p.size ∧ t = target := by
  unfold checkTarget
  split
  · rename_i h
    simp [h, eq_comm]
  · rename_i h
    simp [h]

theorem checkCondition_eq_ok_iff (i : Nat) (cond : Expr) (u : Unit) :
    checkCondition i cond = .ok u ↔ cond.isCondition = true := by
  unfold checkCondition
  split <;> simp_all

theorem newLabels_cons {seen : List Int32} {c : Int32 × Nat} {rest : List (Int32 × Nat)} :
    ((c :: rest).map Prod.fst).Nodup ∧ (∀ d ∈ c :: rest, d.1 ∉ seen) ↔
      c.1 ∉ seen ∧ (rest.map Prod.fst).Nodup ∧ ∀ d ∈ rest, d.1 ∉ c.1 :: seen := by
  rw [List.map_cons, List.nodup_cons, List.forall_mem_cons]
  constructor
  · rintro ⟨⟨hnew, hnodup⟩, hc, hrest⟩
    refine ⟨hc, hnodup, fun d hd hmem => ?_⟩
    rcases List.mem_cons.mp hmem with he | hmem
    · exact hnew (List.mem_map.mpr ⟨d, hd, he⟩)
    · exact hrest d hd hmem
  · rintro ⟨hc, hnodup, hrest⟩
    refine ⟨⟨fun hmem => ?_, hnodup⟩, hc, fun d hd hmem => hrest d hd (List.mem_cons_of_mem _ hmem)⟩
    obtain ⟨d, hd, he⟩ := List.mem_map.mp hmem
    exact hrest d hd (by simp [he])

theorem caseEdges_eq_ok_iff (p : Procedure) (i : Nat) (seen : List Int32)
    (cases : List (Int32 × Nat)) (es : List Edge) :
    caseEdges p i seen cases = .ok es ↔
      (cases.map Prod.fst).Nodup ∧ (∀ c ∈ cases, c.1 ∉ seen) ∧ (∀ c ∈ cases, c.2 < p.size) ∧
        es = cases.map (fun c => ⟨i, c.2, .switchCase c.1⟩) := by
  induction cases generalizing seen es with
  | nil => simp [caseEdges, eq_comm]
  | cons c rest ih =>
    rw [← and_assoc, newLabels_cons, List.forall_mem_cons]
    obtain ⟨label, target⟩ := c
    rw [caseEdges]
    split
    · rename_i hseen
      simp [hseen]
    · rename_i hseen
      simp only [bind_eq_ok_iff, checkTarget_eq_ok_iff, ih, pure, Except.pure, Except.ok.injEq]
      constructor
      · rintro ⟨t, ⟨htarget, rfl⟩, later, ⟨hnodup, hrest, htargets, rfl⟩, rfl⟩
        exact ⟨⟨hseen, hnodup, hrest⟩, ⟨htarget, htargets⟩, rfl⟩
      · rintro ⟨⟨-, hnodup, hrest⟩, ⟨htarget, htargets⟩, rfl⟩
        exact ⟨target, ⟨htarget, rfl⟩, _, ⟨hnodup, hrest, htargets, rfl⟩, rfl⟩

theorem edgesOf_eq_ok_iff (p : Procedure) (s : Stmt) (es : List Edge) :
    edgesOf p s = .ok es ↔ WellFormed p s ∧ es = plainEdges p s := by
  have hgood : WellFormed p s ↔ checkVars p s = .ok () ∧ GoodJumps p s.command := by
    rw [checkVars_eq_ok_iff]
    exact ⟨fun h => ⟨h.known, h.jumps⟩, fun h => ⟨h.1, h.2⟩⟩
  rw [edgesOf, bind_eq_ok_iff, hgood]
  obtain ⟨i, c⟩ := s
  cases c with
  | goto target =>
    simp only [bind_eq_ok_iff, checkTarget_eq_ok_iff, GoodJumps, plainEdges, pure, Except.pure,
      Except.ok.injEq]
    constructor
    · rintro ⟨_, hv, t, ⟨ht, rfl⟩, rfl⟩
      exact ⟨⟨hv, ht⟩, rfl⟩
    · rintro ⟨⟨hv, ht⟩, rfl⟩
      exact ⟨(), hv, target, ⟨ht, rfl⟩, rfl⟩
  | branch cond target =>
    simp only [bind_eq_ok_iff, checkTarget_eq_ok_iff, checkCondition_eq_ok_iff, GoodJumps,
      plainEdges, pure, Except.pure, Except.ok.injEq]
    constructor
    · rintro ⟨_, hv, _, hc, t, ⟨ht, rfl⟩, rfl⟩
      exact ⟨⟨hv, hc, ht⟩, rfl⟩
    · rintro ⟨⟨hv, hc, ht⟩, rfl⟩
      exact ⟨(), hv, (), hc, target, ⟨ht, rfl⟩, rfl⟩
  | switch on cases otherwise =>
    simp only [bind_eq_ok_iff, checkTarget_eq_ok_iff, caseEdges_eq_ok_iff, GoodJumps, plainEdges,
      pure, Except.pure, Except.ok.injEq]
    constructor
    · rintro ⟨_, hv, _, ⟨hn, -, hs, rfl⟩, t, ⟨ht, rfl⟩, rfl⟩
      exact ⟨⟨hv, hn, hs, ht⟩, rfl⟩
    · rintro ⟨⟨hv, hn, hs, ht⟩, rfl⟩
      exact ⟨(), hv, _, ⟨hn, by simp, hs, rfl⟩, otherwise, ⟨ht, rfl⟩, rfl⟩
  | nop | assign place value | call result method args | ret value =>
    simp only [GoodJumps, plainEdges, pure, Except.pure, Except.ok.injEq, and_true]
    constructor
    · rintro ⟨_, hv, rfl⟩
      exact ⟨hv, rfl⟩
    · rintro ⟨hv, rfl⟩
      exact ⟨(), hv, rfl⟩

theorem build_eq_ok_iff (p : Procedure) (g : Graph) :
    build p = .ok g ↔
      (∀ s ∈ p.stmts, WellFormed p s) ∧ g = link p (p.stmts.map (plainEdges p)) := by
  rw [build, bind_eq_ok_iff]
  simp only [mapM_eq_ok_iff (edgesOf_eq_ok_iff p), pure, Except.pure, Except.ok.injEq]
  constructor
  · rintro ⟨_, ⟨h, rfl⟩, rfl⟩
    exact ⟨h, rfl⟩
  · rintro ⟨h, rfl⟩
    exact ⟨_, ⟨h, rfl⟩, rfl⟩

/-! ## Nodes of a built graph -/

variable {p : Procedure} {g : Graph}

theorem stmts_getElem? (p : Procedure) (i : Nat) : p.stmts[i]? = p.body[i]?.map (Stmt.mk i) := by
  simp [Procedure.stmts]

theorem stmt?_bounds {i : Nat} {s : Stmt} (h : p.stmt? i = some s) : s.index = i ∧ i < p.size := by
  rw [Procedure.stmt?, Option.map_eq_some_iff] at h
  obtain ⟨c, hc, rfl⟩ := h
  exact ⟨rfl, (Array.getElem?_eq_some_iff.mp hc).1⟩

theorem mem_stmts {s : Stmt} : s ∈ p.stmts ↔ p.stmt? s.index = some s := by
  rw [Procedure.stmt?, ← stmts_getElem?]
  constructor
  · intro h
    obtain ⟨i, hi⟩ := List.getElem?_of_mem h
    have hs := hi
    rw [stmts_getElem?] at hs
    rw [(stmt?_bounds hs).1]
    exact hi
  · exact List.mem_of_getElem?

theorem length_stmts (p : Procedure) : p.stmts.length = p.size := by
  simp [Procedure.stmts, Procedure.size]

theorem procedure_of_build (hb : build p = .ok g) :
    g.procedure = p := by
  rw [((build_eq_ok_iff p g).mp hb).2, link]

theorem entry_of_build (hb : build p = .ok g) : g.entry = p.size := by
  rw [entry, procedure_of_build hb]

theorem exit_of_build (hb : build p = .ok g) :
    g.exit = p.size + 1 := by
  rw [exit, procedure_of_build hb]

theorem size_of_build (hb : build p = .ok g) :
    g.size = p.size + 2 := by
  rw [((build_eq_ok_iff p g).mp hb).2, link, size]
  simp [length_stmts]

theorem stmt?_entry (g : Graph) : g.stmt? g.entry = some ⟨g.entry, .nop⟩ := by
  rw [stmt?, if_pos (Or.inl rfl)]

theorem eq_nop_of_stmt?_entry {s : Stmt} (h : g.stmt? g.entry = some s) : s = ⟨g.entry, .nop⟩ :=
  Option.some.inj (h.symm.trans (stmt?_entry g))

theorem stmt?_exit (g : Graph) : g.stmt? g.exit = some ⟨g.exit, .nop⟩ := by
  rw [stmt?, if_pos (Or.inr rfl)]

theorem stmt?_body (hb : build p = .ok g) {node : Nat} {s : Stmt} (h : p.stmt? node = some s) :
    g.stmt? node = some s ∧ node ≠ g.entry := by
  have hlt := (stmt?_bounds h).2
  have hentry : node ≠ g.entry := by
    rw [entry_of_build hb]
    omega
  have hexit : node ≠ g.exit := by
    rw [exit_of_build hb]
    omega
  rw [stmt?, if_neg (not_or.mpr ⟨hentry, hexit⟩), procedure_of_build hb]
  exact ⟨h, hentry⟩

theorem stmt?_of_lt (hb : build p = .ok g) {node : Nat}
    (h : node < g.size) : ∃ s, g.stmt? node = some s := by
  unfold stmt?
  split
  · exact ⟨_, rfl⟩
  · rename_i hn
    rw [entry_of_build hb, exit_of_build hb] at hn
    rw [size_of_build hb] at h
    have hlt : node < p.body.size := by
      have : p.size = p.body.size := rfl
      omega
    rw [procedure_of_build hb, Procedure.stmt?, Array.getElem?_eq_getElem hlt]
    exact ⟨_, rfl⟩

theorem stmt?_cases (hb : build p = .ok g) {node : Nat} {s : Stmt}
    (h : g.stmt? node = some s) :
    ((node = g.entry ∨ node = g.exit) ∧ s = ⟨node, .nop⟩) ∨
      (node < p.size ∧ s.index = node ∧ p.stmt? node = some s) := by
  unfold stmt? at h
  split at h
  · rename_i hn
    cases h
    exact Or.inl ⟨hn, rfl⟩
  · rw [procedure_of_build hb] at h
    have hbounds := stmt?_bounds h
    exact Or.inr ⟨hbounds.2, hbounds.1, h⟩

theorem lt_of_stmt? (hb : build p = .ok g) {node : Nat} {s : Stmt}
    (h : g.stmt? node = some s) : node < g.size := by
  rw [size_of_build hb]
  rcases stmt?_cases hb h with ⟨hn, -⟩ | ⟨hlt, -⟩
  · rw [entry_of_build hb, exit_of_build hb] at hn
    omega
  · omega

theorem nop_or_mem_stmts (hb : build p = .ok g) {node : Nat} {s : Stmt}
    (h : g.stmt? node = some s) : s = ⟨node, .nop⟩ ∨ s ∈ p.stmts := by
  rcases stmt?_cases hb h with ⟨-, hs⟩ | ⟨-, hi, hs⟩
  · exact Or.inl hs
  · right
    rw [mem_stmts, hi]
    exact hs

theorem wellFormed_of_stmt? (hb : build p = .ok g) {node : Nat}
    {s : Stmt} (h : g.stmt? node = some s) : WellFormed p s := by
  rcases nop_or_mem_stmts hb h with rfl | hs
  · exact ⟨by simp [Stmt.defines, Stmt.uses, Command.defines, Command.uses], trivial⟩
  · exact ((build_eq_ok_iff p g).mp hb).1 s hs

/-! ## Edges of a built graph -/

theorem outEdges_stmt (hb : build p = .ok g) {i : Nat} {s : Stmt}
    (hs : p.stmt? i = some s) : g.outEdges? i = some (plainEdges p s) := by
  rw [Procedure.stmt?, ← stmts_getElem?] at hs
  have hlt : i < (p.stmts.map (plainEdges p)).length := by
    obtain ⟨hlt, -⟩ := List.getElem?_eq_some_iff.mp hs
    simpa using hlt
  rw [((build_eq_ok_iff p g).mp hb).2, link, outEdges?, List.getElem?_toArray,
    List.getElem?_append_left hlt, List.getElem?_map, hs]
  rfl

theorem outEdges_entry (hb : build p = .ok g) :
    g.outEdges? g.entry = some [entryEdge p] := by
  have hlen : (p.stmts.map (plainEdges p)).length = p.size := by simp [length_stmts]
  rw [entry_of_build hb, ((build_eq_ok_iff p g).mp hb).2, link, outEdges?, List.getElem?_toArray,
    List.getElem?_append_right (by omega), hlen]
  simp

theorem outEdges_exit (hb : build p = .ok g) :
    g.outEdges? g.exit = some [] := by
  have hlen : (p.stmts.map (plainEdges p)).length = p.size := by simp [length_stmts]
  rw [exit_of_build hb, ((build_eq_ok_iff p g).mp hb).2, link, outEdges?, List.getElem?_toArray,
    List.getElem?_append_right (by omega), hlen]
  simp

theorem source_plainEdges {p : Procedure} {s : Stmt} {e : Edge} (h : e ∈ plainEdges p s) :
    e.source = s.index := by
  unfold plainEdges at h
  split at h
  all_goals
    simp only [List.mem_cons, List.mem_append, List.mem_map, List.not_mem_nil, or_false] at h
  · rw [h]
  · rcases h with rfl | rfl <;> rfl
  · rcases h with ⟨c, -, rfl⟩ | rfl <;> rfl
  all_goals rw [h]

theorem next_bounds {p : Procedure} {i : Nat} (hi : i < p.size) :
    next p i ≠ p.size ∧ next p i < p.size + 2 := by
  unfold next
  split <;> omega

theorem target_plainEdges {p : Procedure} {s : Stmt} {e : Edge} (hw : WellFormed p s)
    (hi : s.index < p.size) (h : e ∈ plainEdges p s) :
    e.target ≠ p.size ∧ e.target < p.size + 2 := by
  have hnext := next_bounds hi
  have hjumps := hw.jumps
  unfold plainEdges at h
  split at h
  all_goals rename_i hc
  all_goals simp only [hc, GoodJumps] at hjumps
  all_goals
    simp only [List.mem_cons, List.mem_append, List.mem_map, List.not_mem_nil, or_false] at h
  · subst h
    simp only
    omega
  · rcases h with rfl | rfl
    · simp only
      omega
    · exact hnext
  · rcases h with ⟨c, hcase, rfl⟩ | rfl
    · have := hjumps.2.1 c hcase
      simp only
      omega
    · simp only
      omega
  · subst h
    simp only
    omega
  all_goals
    subst h
    exact hnext

/-! ## The two tables agree -/

/-- Control may pass from one node to another along an edge. -/
def Follows (g : Graph) (s t : Nat) : Prop :=
  ∃ es, g.outEdges? s = some es ∧ ∃ e ∈ es, e.target = t

theorem byTarget_cons (n : Nat) (e : Edge) (es : List Edge) :
    byTarget n (e :: es) = (byTarget n es).modify e.target (e :: ·) := rfl

theorem byTarget_getElem? (n : Nat) (es : List Edge) (t : Nat) (ht : t < n) :
    (byTarget n es)[t]? = some (es.filter (·.target = t)) := by
  induction es with
  | nil => simp [byTarget, ht]
  | cons e es ih =>
    rw [byTarget_cons, Array.getElem?_modify, ih]
    by_cases h : e.target = t
    · simp [h]
    · simp [h]

/-- All edges in the order in which the in-table keeps them. -/
def allEdges (p : Procedure) : List Edge := entryEdge p :: (p.stmts.map (plainEdges p)).flatten

theorem inEdges_of_build (hb : build p = .ok g) {t : Nat}
    (ht : t < g.size) : g.inEdges? t = some ((allEdges p).filter (·.target = t)) := by
  rw [size_of_build hb] at ht
  rw [((build_eq_ok_iff p g).mp hb).2, link, inEdges?]
  apply byTarget_getElem?
  simp only [List.length_map, length_stmts]
  exact ht

theorem outEdges_cases (hb : build p = .ok g) {node : Nat}
    {es : List Edge} (h : g.outEdges? node = some es) :
    (node = g.entry ∧ es = [entryEdge p]) ∨ (node = g.exit ∧ es = []) ∨
      ∃ s, p.stmt? node = some s ∧ es = plainEdges p s := by
  have hlt : node < g.size := by
    obtain ⟨hlt, -⟩ := Array.getElem?_eq_some_iff.mp h
    exact hlt
  obtain ⟨s, hs⟩ := stmt?_of_lt hb hlt
  rcases stmt?_cases hb hs with ⟨rfl | rfl, -⟩ | ⟨-, -, hp⟩
  · rw [outEdges_entry hb] at h
    cases h
    exact Or.inl ⟨rfl, rfl⟩
  · rw [outEdges_exit hb] at h
    cases h
    exact Or.inr (Or.inl ⟨rfl, rfl⟩)
  · rw [outEdges_stmt hb hp] at h
    cases h
    exact Or.inr (Or.inr ⟨s, hp, rfl⟩)

theorem source_of_outEdges (hb : build p = .ok g) {node : Nat}
    {es : List Edge} (h : g.outEdges? node = some es) {e : Edge} (he : e ∈ es) :
    e.source = node := by
  rcases outEdges_cases hb h with ⟨rfl, rfl⟩ | ⟨-, rfl⟩ | ⟨s, hs, rfl⟩
  · rw [List.mem_singleton] at he
    rw [he, entry_of_build hb]
    rfl
  · simp at he
  · rw [source_plainEdges he, (stmt?_bounds hs).1]

theorem mem_allEdges_iff (hb : build p = .ok g) {e : Edge} :
    e ∈ allEdges p ↔ ∃ es, g.outEdges? e.source = some es ∧ e ∈ es := by
  simp only [allEdges, List.mem_cons, List.mem_flatten, List.mem_map]
  constructor
  · rintro (rfl | ⟨_, ⟨s, hs, rfl⟩, he⟩)
    · refine ⟨[entryEdge p], ?_, List.mem_singleton.mpr rfl⟩
      rw [← outEdges_entry hb, entry_of_build hb]
      rfl
    · refine ⟨_, ?_, he⟩
      rw [source_plainEdges he]
      exact outEdges_stmt hb (mem_stmts.mp hs)
  · rintro ⟨es, hes, he⟩
    rcases outEdges_cases hb hes with ⟨-, rfl⟩ | ⟨-, rfl⟩ | ⟨s, hs, rfl⟩
    · exact Or.inl (List.mem_singleton.mp he)
    · simp at he
    · refine Or.inr ⟨_, ⟨s, ?_, rfl⟩, he⟩
      rw [mem_stmts, ← source_plainEdges he]
      exact hs

theorem target_bounds (hb : build p = .ok g) {node : Nat}
    {es : List Edge} (h : g.outEdges? node = some es) {e : Edge} (he : e ∈ es) :
    e.target < g.size ∧ e.target ≠ g.entry := by
  rw [size_of_build hb, entry_of_build hb]
  rcases outEdges_cases hb h with ⟨-, rfl⟩ | ⟨-, rfl⟩ | ⟨s, hs, rfl⟩
  · rw [List.mem_singleton] at he
    rw [he, entryEdge]
    simp only
    split <;> omega
  · simp at he
  · obtain ⟨hindex, hlt⟩ := stmt?_bounds hs
    have hmem : s ∈ p.stmts := by
      rw [mem_stmts, hindex]
      exact hs
    have := target_plainEdges (((build_eq_ok_iff p g).mp hb).1 s hmem) (hindex ▸ hlt) he
    omega

theorem Follows.bounds (hb : build p = .ok g) {s t : Nat}
    (h : g.Follows s t) : s < g.size ∧ t < g.size ∧ t ≠ g.entry ∧ s ≠ g.exit := by
  obtain ⟨es, hes, e, he, rfl⟩ := h
  have ht := target_bounds hb hes he
  refine ⟨(Array.getElem?_eq_some_iff.mp hes).1, ht.1, ht.2, ?_⟩
  rintro rfl
  rw [outEdges_exit hb] at hes
  cases hes
  simp at he

/-! ## Directions -/

/-- Facts flow from one node into another. -/
def Feeds (g : Graph) : Direction → Nat → Nat → Prop
  | .forward, s, t => g.Follows s t
  | .backward, s, t => g.Follows t s

theorem Feeds.bounds (hb : build p = .ok g) {d : Direction}
    {s t : Nat} (h : g.Feeds d s t) : s < g.size ∧ t < g.size ∧ t ≠ g.boundary d := by
  cases d with
  | forward =>
    have := Follows.bounds hb h
    exact ⟨this.1, this.2.1, this.2.2.1⟩
  | backward =>
    have := Follows.bounds hb h
    exact ⟨this.2.1, this.1, this.2.2.2⟩

theorem boundary_lt (hb : build p = .ok g) (d : Direction) :
    g.boundary d < g.size := by
  rw [size_of_build hb]
  cases d with
  | forward =>
    rw [boundary, entry_of_build hb]
    omega
  | backward =>
    rw [boundary, exit_of_build hb]
    omega

theorem mem_firstVisits {g : Graph} {d : Direction} {node : Nat} :
    node ∈ g.firstVisits d ↔ node < g.size ∧ node ≠ g.boundary d := by
  cases d <;> simp [firstVisits, nodes, boundary]

theorem nodup_firstVisits (g : Graph) (d : Direction) : (g.firstVisits d).Nodup := by
  cases d with
  | forward => exact List.nodup_range.filter _
  | backward => exact (List.nodup_reverse.mpr List.nodup_range).filter _

theorem firstVisits_forward (hb : build p = .ok g) :
    g.firstVisits .forward = List.range p.size ++ [p.size + 1] := by
  have hbody : ∀ m < p.size, m ≠ p.size := fun m hm => by omega
  rw [firstVisits, nodes, size_of_build hb, entry_of_build hb, List.range_succ, List.range_succ]
  simpa using hbody

theorem firstVisits_backward (hb : build p = .ok g) :
    g.firstVisits .backward = (List.range (p.size + 1)).reverse := by
  have hrest : ∀ m < p.size + 1, m ≠ p.size + 1 := fun m hm => by omega
  rw [firstVisits, nodes, size_of_build hb, exit_of_build hb, List.range_succ]
  simpa using hrest

theorem succs_of_lt {s : Nat} (hs : s < g.size) :
    ∃ ts, g.succs? s = some ts ∧ ∀ t, t ∈ ts ↔ g.Follows s t := by
  have hout : g.outEdges? s = some g.outTable[s] := Array.getElem?_eq_getElem hs
  refine ⟨_, by rw [succs?, hout, Option.map_some], fun t => ?_⟩
  rw [List.mem_map, Follows]
  constructor
  · rintro ⟨e, he, rfl⟩
    exact ⟨_, hout, e, he, rfl⟩
  · rintro ⟨es, hes, e, he, rfl⟩
    rw [hout] at hes
    cases hes
    exact ⟨e, he, rfl⟩

theorem preds_of_lt (hb : build p = .ok g) {t : Nat}
    (ht : t < g.size) : ∃ ss, g.preds? t = some ss ∧ ∀ s, s ∈ ss ↔ g.Follows s t := by
  refine ⟨_, by rw [preds?, inEdges_of_build hb ht, Option.map_some], fun s => ?_⟩
  simp only [List.mem_map, List.mem_filter, mem_allEdges_iff hb, decide_eq_true_eq]
  constructor
  · rintro ⟨e, ⟨⟨es, hes, he⟩, rfl⟩, rfl⟩
    exact ⟨es, hes, e, he, rfl⟩
  · rintro ⟨es, hes, e, he, rfl⟩
    have hsource := source_of_outEdges hb hes he
    exact ⟨e, ⟨⟨es, hsource ▸ hes, he⟩, rfl⟩, hsource⟩

theorem feeders_of_lt (hb : build p = .ok g) (d : Direction)
    {t : Nat} (ht : t < g.size) :
    ∃ ss, g.feeders? d t = some ss ∧ ∀ s, s ∈ ss ↔ g.Feeds d s t := by
  cases d with
  | forward => exact preds_of_lt hb ht
  | backward => exact succs_of_lt ht

theorem readers_of_lt (hb : build p = .ok g) (d : Direction)
    {s : Nat} (hs : s < g.size) :
    ∃ ts, g.readers? d s = some ts ∧ ∀ t, t ∈ ts ↔ g.Feeds d s t := by
  cases d with
  | forward => exact succs_of_lt hs
  | backward => exact preds_of_lt hb hs

theorem mem_feeders_iff (hb : build p = .ok g) {d : Direction} {s t : Nat} {ss : List Nat}
    (ht : t < g.size) (h : g.feeders? d t = some ss) : s ∈ ss ↔ g.Feeds d s t := by
  obtain ⟨ss', hss, hmem⟩ := feeders_of_lt hb d ht
  rw [h] at hss
  cases hss
  exact hmem s

theorem mem_readers_iff (hb : build p = .ok g) {d : Direction} {s t : Nat} {ts : List Nat}
    (hs : s < g.size) (h : g.readers? d s = some ts) : t ∈ ts ↔ g.Feeds d s t := by
  obtain ⟨ts', hts, hmem⟩ := readers_of_lt hb d hs
  rw [h] at hts
  cases hts
  exact hmem t

/-! ## Counting edges -/

theorem sum_length_lists (table : Array (List Edge)) :
    ∑ n ∈ Finset.range table.size, (table[n]?.getD []).length = table.toList.flatten.length := by
  rw [List.length_flatten, Finset.sum_range, ← List.sum_ofFn]
  congr 1
  apply List.ext_getElem
  · simp
  · intro n hn hn'
    simp

theorem sum_length_byTarget {n : Nat} {es : List Edge} (h : ∀ e ∈ es, e.target < n) :
    ∑ t ∈ Finset.range n, (es.filter (·.target = t)).length = es.length := by
  induction es with
  | nil => simp
  | cons e es ih =>
    rw [List.forall_mem_cons] at h
    have hcons : ∀ t, ((e :: es).filter (·.target = t)).length =
        (es.filter (·.target = t)).length + if e.target = t then 1 else 0 := by
      intro t
      by_cases he : e.target = t <;> simp [he]
    simp only [hcons, Finset.sum_add_distrib, ih h.2, Finset.sum_ite_eq, Finset.mem_range, h.1,
      if_true, List.length_cons]

theorem length_allEdges (hb : build p = .ok g) : (allEdges p).length = g.edges.length := by
  rw [((build_eq_ok_iff p g).mp hb).2]
  simp [edges, link, allEdges]

/-- How many edges lead from a node to the nodes that read its facts. -/
def fanOut (g : Graph) (d : Direction) (node : Nat) : Nat := ((g.readers? d node).getD []).length

theorem sum_fanOut (hb : build p = .ok g) (d : Direction) :
    ∑ n ∈ Finset.range g.size, g.fanOut d n = g.edges.length := by
  cases d with
  | forward =>
    rw [edges, ← sum_length_lists]
    apply Finset.sum_congr rfl
    intro n _
    rw [fanOut, readers?, succs?, outEdges?]
    cases g.outTable[n]? <;> simp
  | backward =>
    have htarget : ∀ e ∈ allEdges p, e.target < g.size := by
      intro e he
      obtain ⟨es, hes, he⟩ := (mem_allEdges_iff hb).mp he
      exact (target_bounds hb hes he).1
    rw [← length_allEdges hb, ← sum_length_byTarget htarget]
    apply Finset.sum_congr rfl
    intro n hn
    rw [fanOut, readers?, preds?, inEdges_of_build hb (Finset.mem_range.mp hn)]
    simp

end Graph

end FlowFacts
