import FlowFacts.Proofs.Graph

/-! # A graph is the control flow of its body

A builder that lays the edges one at a time, each into both tables, and that refuses an edge of a
node that is not there, finds nothing to refuse: it gives the graph of `build` or the fault of
`build`. In the graph each node has the edges of its statement in order, and the edges that enter
a node are those that leave all others, in the order in which they were laid.
-/

namespace FlowFacts.Graph

/-! ## Laying edges one at a time -/

/-- Why the edges of a procedure cannot be laid. -/
inductive LayError where
  | fault (e : BuildError)
  /-- The tables have no such node. -/
  | outOfRange (node : Nat)

structure Tables where
  outs : Array (List Edge)
  ins : Array (List Edge)

namespace Tables

def blank (n : Nat) : Tables := ⟨Array.replicate n [], Array.replicate n []⟩

/-- Puts an edge at the end of the lists of its source and of its target. -/
def put (t : Tables) (e : Edge) : Tables :=
  ⟨t.outs.modify e.source (· ++ [e]), t.ins.modify e.target (· ++ [e])⟩

def putAll (t : Tables) (es : List Edge) : Tables := es.foldl put t

def add (t : Tables) (e : Edge) : Except LayError Tables :=
  if e.source < t.outs.size then
    if e.target < t.ins.size then .ok (t.put e) else .error (.outOfRange e.target)
  else .error (.outOfRange e.source)

end Tables

def layCases (p : Procedure) (i : Nat) :
    List Int32 → List (Int32 × Nat) → Tables → Except LayError Tables
  | _, [], t => .ok t
  | seen, (label, target) :: rest, t =>
    if label ∈ seen then .error (.fault (.duplicateCase i label))
    else do
      let target ← (checkTarget p i target).mapError .fault
      let t ← t.add ⟨i, target, .switchCase label⟩
      layCases p i (label :: seen) rest t

/-- Lays the edges of a statement, up to its first fault. -/
def layStmt (p : Procedure) (t : Tables) (s : Stmt) : Except LayError Tables := do
  (checkVars p s).mapError .fault
  match s.command with
  | .goto target =>
    let target ← (checkTarget p s.index target).mapError .fault
    t.add ⟨s.index, target, .goto⟩
  | .branch cond target =>
    (checkCondition s.index cond).mapError .fault
    let target ← (checkTarget p s.index target).mapError .fault
    let t ← t.add ⟨s.index, target, .ifTrue⟩
    t.add ⟨s.index, next p s.index, .ifFalse⟩
  | .switch _ cases otherwise =>
    let t ← layCases p s.index [] cases t
    let otherwise ← (checkTarget p s.index otherwise).mapError .fault
    t.add ⟨s.index, otherwise, .switchDefault⟩
  | .ret _ => t.add ⟨s.index, p.size + 1, .ret⟩
  | .nop | .assign _ _ | .call _ _ _ => t.add ⟨s.index, next p s.index, .fallThrough⟩

/-- Lays the edge of the entry and then those of the statements in turn. -/
def lay (p : Procedure) : Except LayError Graph := do
  let t ← (Tables.blank (p.size + 2)).add (entryEdge p)
  let t ← p.stmts.foldlM (layStmt p) t
  return ⟨p, t.outs, t.ins⟩

/-! ## No edge is refused -/

namespace Tables

structure Sized (t : Tables) (n : Nat) : Prop where
  outs : t.outs.size = n
  ins : t.ins.size = n

variable {t : Tables} {n : Nat}

theorem sized_blank (n : Nat) : (blank n).Sized n := by
  constructor <;> simp [blank]

theorem Sized.put (h : t.Sized n) (e : Edge) : (t.put e).Sized n := by
  constructor
  · simp [Tables.put, h.outs]
  · simp [Tables.put, h.ins]

theorem Sized.putAll (h : t.Sized n) (es : List Edge) : (t.putAll es).Sized n := by
  induction es generalizing t with
  | nil => exact h
  | cons e es ih => exact ih (h.put e)

theorem Sized.add (h : t.Sized n) {e : Edge} (hs : e.source < n) (ht : e.target < n) :
    t.add e = .ok (t.put e) := by
  unfold Tables.add
  rw [h.outs, h.ins, if_pos hs, if_pos ht]

theorem putAll_append (t : Tables) (es fs : List Edge) :
    t.putAll (es ++ fs) = (t.putAll es).putAll fs := by
  unfold putAll
  rw [List.foldl_append]

end Tables

theorem checkTarget_cases (p : Procedure) (i target : Nat) :
    (target < p.size ∧ checkTarget p i target = .ok target) ∨
      checkTarget p i target = .error (.invalidTarget i target) := by
  unfold checkTarget
  split
  · rename_i h
    exact Or.inl ⟨h, rfl⟩
  · exact Or.inr rfl

theorem layCases_eq {p : Procedure} {i : Nat} (hi : i < p.size) (seen : List Int32)
    (cases : List (Int32 × Nat)) {t : Tables} (h : t.Sized (p.size + 2)) :
    layCases p i seen cases t = ((caseEdges p i seen cases).map t.putAll).mapError .fault := by
  induction cases generalizing seen t with
  | nil => rfl
  | cons c rest ih =>
    obtain ⟨label, target⟩ := c
    unfold layCases caseEdges
    split
    · rfl
    · rcases checkTarget_cases p i target with ⟨hlt, hok⟩ | herror
      · have hadd : t.add ⟨i, target, .switchCase label⟩ = .ok _ :=
          h.add (show i < _ by omega) (show target < _ by omega)
        simp only [hok, Except.mapError, bind, Except.bind, hadd, ih _ (h.put _)]
        cases caseEdges p i (label :: seen) rest <;> rfl
      · rw [herror]
        rfl

theorem layStmt_eq {p : Procedure} {s : Stmt} (hi : s.index < p.size) {t : Tables}
    (h : t.Sized (p.size + 2)) :
    layStmt p t s = ((edgesOf p s).map t.putAll).mapError .fault := by
  have hnext := (next_bounds hi).2
  have hsource : s.index < p.size + 2 := by omega
  have hadd : ∀ {t : Tables}, t.Sized (p.size + 2) → ∀ target kind, target < p.size + 2 →
      t.add ⟨s.index, target, kind⟩ = .ok (t.put ⟨s.index, target, kind⟩) :=
    fun h target kind ht => h.add hsource ht
  unfold layStmt edgesOf
  cases checkVars p s with
  | error e => rfl
  | ok u =>
    cases s.command with
    | goto target =>
      rcases checkTarget_cases p s.index target with ⟨hlt, hok⟩ | herror
      · simp only [hok, Except.mapError, bind, Except.bind]
        exact hadd h _ _ (by omega)
      · simp only [herror]
        rfl
    | branch cond target =>
      cases hcond : checkCondition s.index cond with
      | error e =>
        simp only [hcond]
        rfl
      | ok u =>
        rcases checkTarget_cases p s.index target with ⟨hlt, hok⟩ | herror
        · simp only [hcond, hok, Except.mapError, bind, Except.bind, hadd h target _ (by omega)]
          exact hadd (h.put _) _ _ hnext
        · simp only [hcond, herror]
          rfl
    | switch on cases otherwise =>
      simp only [layCases_eq hi [] cases h]
      cases caseEdges p s.index [] cases with
      | error e => rfl
      | ok es =>
        rcases checkTarget_cases p s.index otherwise with ⟨hlt, hok⟩ | herror
        · simp only [hok, Except.mapError, Except.map, bind, Except.bind, pure, Except.pure,
            Tables.putAll_append]
          exact hadd (h.putAll es) _ _ (by omega)
        · simp only [herror]
          rfl
    | ret value => exact hadd h _ _ (by omega)
    | nop | assign place value | call result method args => exact hadd h _ _ hnext

theorem layAll_eq {p : Procedure} {stmts : List Stmt} (hi : ∀ s ∈ stmts, s.index < p.size)
    {t : Tables} (h : t.Sized (p.size + 2)) :
    stmts.foldlM (layStmt p) t =
      ((stmts.mapM (edgesOf p)).map fun lists => t.putAll lists.flatten).mapError .fault := by
  induction stmts generalizing t with
  | nil => rfl
  | cons s stmts ih =>
    rw [List.forall_mem_cons] at hi
    rw [List.foldlM_cons, List.mapM_cons, layStmt_eq hi.1 h]
    cases edgesOf p s with
    | error e => rfl
    | ok es =>
      simp only [Except.map, Except.mapError, bind, Except.bind, ih hi.2 (h.putAll es)]
      cases stmts.mapM (edgesOf p) with
      | error e => rfl
      | ok lists => simp [pure, Except.pure, Tables.putAll_append]

/-! ## Both ways give one graph -/

theorem Tables.getElem?_putAll (t : Tables) (es : List Edge) (i : Nat) :
    (t.putAll es).outs[i]? = t.outs[i]?.map (· ++ es.filter (·.source = i)) ∧
      (t.putAll es).ins[i]? = t.ins[i]?.map (· ++ es.filter (·.target = i)) := by
  induction es generalizing t with
  | nil => simp [putAll]
  | cons e es ih =>
    have hcons : t.putAll (e :: es) = (t.put e).putAll es := rfl
    rw [hcons, (ih _).1, (ih _).2]
    constructor
    · simp only [put, Array.getElem?_modify]
      by_cases h : e.source = i <;> cases t.outs[i]? <;> simp [h]
    · simp only [put, Array.getElem?_modify]
      by_cases h : e.target = i <;> cases t.ins[i]? <;> simp [h]

/-- The edges that leave a node, none for a node that is not there. -/
def leaving (g : Graph) (node : Nat) : List Edge := (g.outEdges? node).getD []

variable {p : Procedure} {g : Graph}

theorem source_of_leaving (hb : build p = .ok g) {node : Nat} {e : Edge}
    (he : e ∈ g.leaving node) : e.source = node := by
  unfold leaving at he
  cases hes : g.outEdges? node with
  | none => simp [hes] at he
  | some es => exact source_of_outEdges hb hes (by simpa [hes] using he)

theorem allEdges_eq (hb : build p = .ok g) :
    allEdges p = (g.entry :: List.range p.size).flatMap g.leaving := by
  have hlists : p.stmts.map (plainEdges p) = (List.range p.size).map g.leaving := by
    apply List.ext_getElem?
    intro i
    rw [List.getElem?_map, List.getElem?_map, stmts_getElem?]
    cases hs : p.stmt? i with
    | none =>
      have hle : p.size ≤ i := by simpa [Procedure.stmt?, Procedure.size] using hs
      rw [Procedure.stmt?] at hs
      rw [hs, List.getElem?_eq_none (by simpa using hle)]
      rfl
    | some s =>
      have hlt := (stmt?_bounds hs).2
      rw [Procedure.stmt?] at hs
      simp [hs, List.getElem?_range hlt, leaving, outEdges_stmt hb hs]
  rw [allEdges, hlists, List.flatMap_cons, leaving, outEdges_entry hb, List.flatMap_def]
  rfl

theorem filter_source {f : Nat → List Edge} (hf : ∀ n, ∀ e ∈ f n, e.source = n) (n i : Nat) :
    ((List.range n).flatMap f).filter (·.source = i) = if i < n then f i else [] := by
  induction n with
  | zero => simp
  | succ n ih =>
    rw [List.range_succ, List.flatMap_append, List.filter_append, ih, List.flatMap_singleton]
    by_cases hin : i = n
    · subst hin
      rw [List.filter_eq_self.mpr (by simpa using hf i)]
      simp
    · have hnone : (f n).filter (·.source = i) = [] := by
        rw [List.filter_eq_nil_iff]
        intro e he
        simpa [hf n e he] using Ne.symm hin
      have hlt : i < n + 1 ↔ i < n := by omega
      simp [hnone, hlt]

theorem filter_source_allEdges (hb : build p = .ok g) {i : Nat} (hi : i < g.size) :
    (allEdges p).filter (·.source = i) = g.leaving i := by
  have hsource : ∀ n, ∀ e ∈ g.leaving n, e.source = n := fun n e he => source_of_leaving hb he
  rw [allEdges_eq hb, List.flatMap_cons, List.filter_append, filter_source hsource]
  by_cases hentry : i = g.entry
  · rw [hentry, List.filter_eq_self.mpr (by simpa using hsource g.entry), entry_of_build hb]
    simp
  · have hnone : (g.leaving g.entry).filter (·.source = i) = [] := by
      rw [List.filter_eq_nil_iff]
      intro e he
      simpa [hsource _ e he] using Ne.symm hentry
    rw [hnone, List.nil_append]
    split
    · rfl
    · have hexit : i = g.exit := by
        rw [size_of_build hb] at hi
        rw [entry_of_build hb] at hentry
        rw [exit_of_build hb]
        omega
      rw [hexit, leaving, outEdges_exit hb]
      rfl

theorem size_inTable (hb : build p = .ok g) : g.inTable.size = g.size := by
  have hsize : ∀ n (es : List Edge), (byTarget n es).size = n := by
    intro n es
    induction es with
    | nil => simp [byTarget]
    | cons e es ih => rw [byTarget_cons, Array.size_modify, ih]
  rw [size_of_build hb, ((build_eq_ok_iff p g).mp hb).2, link, hsize]
  simp [length_stmts]

theorem putAll_allEdges (hb : build p = .ok g) :
    (Tables.blank (p.size + 2)).putAll (allEdges p) = ⟨g.outTable, g.inTable⟩ := by
  have hblank : ∀ i, (Array.replicate (p.size + 2) ([] : List Edge))[i]? =
      if i < g.size then some [] else none := by
    intro i
    rw [size_of_build hb, Array.getElem?_replicate]
  have houts : ((Tables.blank (p.size + 2)).putAll (allEdges p)).outs = g.outTable := by
    apply Array.ext_getElem?
    intro i
    rw [(Tables.getElem?_putAll _ _ _).1, Tables.blank, hblank]
    split
    · rename_i hi
      rw [filter_source_allEdges hb hi, leaving, outEdges?, Array.getElem?_eq_getElem hi]
      rfl
    · rename_i hi
      rw [Array.getElem?_eq_none (Nat.le_of_not_lt hi)]
      rfl
  have hins : ((Tables.blank (p.size + 2)).putAll (allEdges p)).ins = g.inTable := by
    apply Array.ext_getElem?
    intro i
    rw [(Tables.getElem?_putAll _ _ _).2, Tables.blank, hblank]
    split
    · rename_i hi
      rw [← inEdges?, inEdges_of_build hb hi]
      rfl
    · rename_i hi
      rw [Array.getElem?_eq_none (by rw [size_inTable hb]; omega)]
      rfl
  rw [← houts, ← hins]

/-- Laid one at a time, the edges give the graph of `build`, or its fault. -/
theorem lay_eq_build (p : Procedure) : lay p = (build p).mapError .fault := by
  have hentry : (Tables.blank (p.size + 2)).add (entryEdge p) = .ok _ :=
    (Tables.sized_blank _).add (show p.size < _ by omega) (by
      unfold entryEdge
      simp only
      split <;> omega)
  have hindex : ∀ s ∈ p.stmts, s.index < p.size := fun s hs => (stmt?_bounds (mem_stmts.mp hs)).2
  unfold lay
  simp only [hentry, bind, Except.bind, layAll_eq hindex ((Tables.sized_blank _).put _)]
  cases hlists : p.stmts.mapM (edgesOf p) with
  | error e =>
    have hb : build p = .error e := by
      unfold build
      rw [hlists]
      rfl
    rw [hb]
    rfl
  | ok lists =>
    have hb : build p = .ok (link p lists) := by
      unfold build
      rw [hlists]
      rfl
    have hedges : allEdges p = entryEdge p :: lists.flatten := by
      rw [allEdges, ((mapM_eq_ok_iff (edgesOf_eq_ok_iff p) _ _).mp hlists).2]
    have htables : ((Tables.blank (p.size + 2)).put (entryEdge p)).putAll lists.flatten =
        ⟨(link p lists).outTable, (link p lists).inTable⟩ := by
      rw [← putAll_allEdges hb, hedges]
      rfl
    simp only [hb, Except.map, Except.mapError, htables]
    rfl

/-! ## What a built graph has -/

/-- The edges of a graph are the ways that control can go through a body. -/
structure ControlFlow (p : Procedure) (g : Graph) : Prop where
  size : g.size = p.size + 2
  entry : g.entry = p.size
  exit : g.exit = p.size + 1
  nodes : ∀ node, ((g.outEdges? node).isSome ↔ node < g.size) ∧
    ((g.inEdges? node).isSome ↔ node < g.size)
  from_entry : g.outEdges? g.entry =
    some [⟨g.entry, if p.size = 0 then g.exit else 0, .entry⟩]
  from_exit : g.outEdges? g.exit = some []
  from_stmt : ∀ i s, p.stmt? i = some s → g.outEdges? i = some (plainEdges p s)
  source : ∀ node, ∀ e ∈ g.leaving node, e.source = node
  target : ∀ node, ∀ e ∈ g.leaving node, e.target < g.size ∧ e.target ≠ g.entry
  mirrored : ∀ node, node < g.size → g.inEdges? node = some
    (((g.entry :: List.range p.size).flatMap g.leaving).filter (·.target = node))
  no_preds : g.preds? g.entry = some []
  no_succs : g.succs? g.exit = some []
  has_succ : ∀ node, node < g.size → node ≠ g.exit → ∃ t ts, g.succs? node = some (t :: ts)
  labels : ∀ node, ((g.leaving node).filterMap (·.kind.label?)).Nodup

theorem target_of_leaving (hb : build p = .ok g) {node : Nat} {e : Edge}
    (he : e ∈ g.leaving node) : e.target < g.size ∧ e.target ≠ g.entry := by
  unfold leaving at he
  cases hes : g.outEdges? node with
  | none => simp [hes] at he
  | some es => exact target_bounds hb hes (by simpa [hes] using he)

theorem labels_plainEdges {s : Stmt} (h : WellFormed p s) :
    ((plainEdges p s).filterMap (·.kind.label?)).Nodup := by
  have hjumps := h.jumps
  obtain ⟨i, c⟩ := s
  cases c with
  | switch on cases otherwise =>
    have hlabels : (cases.map fun c => (⟨i, c.2, .switchCase c.1⟩ : Edge)).filterMap
        (·.kind.label?) = cases.map Prod.fst := by
      rw [List.filterMap_map]
      exact congrFun List.filterMap_eq_map cases
    simp only [plainEdges, List.filterMap_append, hlabels]
    simpa [EdgeKind.label?] using hjumps.1
  | _ => simp [plainEdges, EdgeKind.label?]

theorem plainEdges_ne_nil (p : Procedure) (s : Stmt) : plainEdges p s ≠ [] := by
  unfold plainEdges
  split <;> simp

theorem succs_ne_nil (hb : build p = .ok g) {node : Nat} (hlt : node < g.size)
    (hne : node ≠ g.exit) : ∃ t ts, g.succs? node = some (t :: ts) := by
  obtain ⟨es, hes⟩ : ∃ es, g.outEdges? node = some es := ⟨_, Array.getElem?_eq_getElem hlt⟩
  have hnil : es ≠ [] := by
    rcases outEdges_cases hb hes with ⟨-, rfl⟩ | ⟨hexit, -⟩ | ⟨s, -, rfl⟩
    · simp
    · exact absurd hexit hne
    · exact plainEdges_ne_nil p s
  obtain ⟨e, rest, rfl⟩ := List.exists_cons_of_ne_nil hnil
  exact ⟨e.target, rest.map Edge.target, by rw [succs?, hes]; rfl⟩

theorem labels_nodup (hb : build p = .ok g) (node : Nat) :
    ((g.leaving node).filterMap (·.kind.label?)).Nodup := by
  unfold leaving
  cases hes : g.outEdges? node with
  | none => simp
  | some es =>
    rcases outEdges_cases hb hes with ⟨-, rfl⟩ | ⟨-, rfl⟩ | ⟨s, hs, rfl⟩
    · simp [entryEdge, EdgeKind.label?]
    · simp
    · have hbody := (stmt?_body hb hs).1
      exact labels_plainEdges (wellFormed_of_stmt? hb hbody)

/-- A graph that is built has the control flow of its procedure. -/
theorem build_controlFlow (hb : build p = .ok g) : ControlFlow p g where
  size := size_of_build hb
  entry := entry_of_build hb
  exit := exit_of_build hb
  nodes node := by
    have hin := size_inTable hb
    simp only [Graph.size, outEdges?, inEdges?] at hin ⊢
    simp [hin]
  from_entry := by
    rw [outEdges_entry hb, entryEdge, entry_of_build hb, exit_of_build hb]
    split <;> simp_all
  from_exit := outEdges_exit hb
  from_stmt _ _ hs := outEdges_stmt hb hs
  source _ _ he := source_of_leaving hb he
  target _ _ he := target_of_leaving hb he
  mirrored _ hlt := by rw [inEdges_of_build hb hlt, allEdges_eq hb]
  no_preds := by
    obtain ⟨ss, hss, hmem⟩ := preds_of_lt hb (boundary_lt hb .forward)
    rw [List.eq_nil_iff_forall_not_mem.mpr fun m hm => ((hmem m).mp hm |>.bounds hb).2.2.1 rfl]
      at hss
    exact hss
  no_succs := by rw [succs?, outEdges_exit hb]; rfl
  has_succ _ hlt hne := succs_ne_nil hb hlt hne
  labels := labels_nodup hb

/-- A switch with two cases of one target, a branch back, and a last statement that falls off the
end. -/
def forkAndJoin : Procedure where
  vars := #[⟨"x", .int⟩]
  params := [⟨0⟩]
  body := #[
    .switch ⟨0⟩ [(1, 2), (2, 2)] 1,
    .branch (.binary .lt ⟨0⟩ ⟨0⟩) 0,
    .nop]
  params_known := by decide

theorem forkAndJoin_controlFlow :
    ∃ g, build forkAndJoin = .ok g ∧ ControlFlow forkAndJoin g ∧
      g.outEdges? 2 = some [⟨2, 4, .fallThrough⟩] ∧
      g.inEdges? 2 =
        some [⟨0, 2, .switchCase 1⟩, ⟨0, 2, .switchCase 2⟩, ⟨1, 2, .ifFalse⟩] ∧
      g.inEdges? 0 = some [⟨3, 0, .entry⟩, ⟨1, 0, .ifTrue⟩] :=
  ⟨_, rfl, build_controlFlow rfl, rfl, rfl, rfl⟩

end FlowFacts.Graph
