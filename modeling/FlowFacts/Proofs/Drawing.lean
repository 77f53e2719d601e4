import FlowFacts.Drawing
import FlowFacts.Proofs.Graph
import FlowFacts.Proofs.Text

/-! # Drawings can be read back

Every line of a drawing shows where it ends, whatever the names in it: the quoted text of a node is
escaped, and the rest of a line has no names. So two drawings in one style that are the same text
are drawings of the same nodes and edges.
-/

namespace FlowFacts.Drawing

/-! ## Quoted texts -/

/-- Reads up to the closing quote. A backslash takes the next character as it is. -/
def readQuoted : List Char → Option (List Char × List Char)
  | [] => none
  | '"' :: rest => some ([], rest)
  | '\\' :: [] => none
  | '\\' :: c :: rest => (readQuoted rest).map (Prod.map (c :: ·) id)
  | c :: rest => (readQuoted rest).map (Prod.map (c :: ·) id)

theorem shield_cons (c d : Char) (text : List Char) :
    shield c (d :: text) = (if d = c then ['\\', d] else [d]) ++ shield c text := rfl

theorem readQuoted_shield (text rest : List Char) :
    readQuoted (shield '"' (shield '\\' text) ++ '"' :: rest) = some (text, rest) := by
  induction text with
  | nil => rfl
  | cons c text ih =>
    by_cases hback : c = '\\'
    · simp [shield_cons, hback, readQuoted, ih]
    · by_cases hquote : c = '"'
      · simp [shield_cons, hquote, readQuoted, ih]
      · simp [shield_cons, hback, hquote, readQuoted, ih]

theorem readQuoted_append {s text rest : List Char} (h : readQuoted s = some (text, rest))
    (more : List Char) : readQuoted (s ++ more) = some (text, rest ++ more) := by
  fun_induction readQuoted s generalizing text with
  | case1 | case3 => simp at h
  | case2 tail =>
    obtain ⟨rfl, rfl⟩ := Prod.mk.inj (Option.some.inj h)
    rfl
  | case4 c tail ih =>
    obtain ⟨⟨text, rest⟩, htail, heq⟩ := Option.map_eq_some_iff.mp h
    obtain ⟨rfl, rfl⟩ := Prod.mk.inj heq
    simp [readQuoted, ih htail]
  | case5 c tail hquote hlast hescape ih =>
    have hback : c ≠ '\\' := by
      rintro rfl
      cases tail with
      | nil => exact hlast rfl rfl
      | cons d tail => exact hescape d tail rfl rfl
    obtain ⟨⟨text, rest⟩, htail, heq⟩ := Option.map_eq_some_iff.mp h
    obtain ⟨rfl, rfl⟩ := Prod.mk.inj heq
    have hread : ∀ u, readQuoted (c :: u) = (readQuoted u).map (Prod.map (c :: ·) id) := by
      intro u
      simp [readQuoted, hback]
    rw [List.cons_append, hread, ih htail]
    rfl

theorem toList_escape (text : String) :
    (escape text).toList = shield '"' (shield '\\' text.toList) := by
  simp [escape]

/-- Scanning an escaped text gives the text back and ends at the quote after it. -/
theorem readQuoted_escape (text rest : String) :
    readQuoted (escape text ++ "\"" ++ rest).toList = some (text.toList, rest.toList) ∧
      ∀ part, part <+: (escape text).toList → readQuoted part = none := by
  constructor
  · rw [String.toList_append, String.toList_append, toList_escape, List.append_assoc]
    exact readQuoted_shield text.toList rest.toList
  · rintro part ⟨more, hmore⟩
    cases hread : readQuoted part with
    | none => rfl
    | some found =>
      -- Where the scan of a part ends, it ends with more of the text behind it too.
      have hwhole := readQuoted_append hread (more ++ ['"'])
      rw [← List.append_assoc, hmore, toList_escape, readQuoted_shield] at hwhole
      simp at hwhole

theorem toList_quoted (text : String) :
    (quoted text).toList = '"' :: (shield '"' (shield '\\' text.toList) ++ ['"']) := by
  simp [quoted, toList_escape]

theorem quoted_append_inj {s t : String} {u v : List Char}
    (h : (quoted s).toList ++ u = (quoted t).toList ++ v) : s = t ∧ u = v := by
  simp only [toList_quoted, List.cons_append, List.append_assoc, List.nil_append,
    List.cons.injEq, true_and] at h
  have hread := congrArg readQuoted h
  rw [readQuoted_shield, readQuoted_shield] at hread
  simpa [String.toList_inj] using hread

/-! ## Lines of nodes -/

theorem boundary_iff (style : Style) {g : Graph} {node : Nat} :
    (node = g.entry ∨ node = g.exit) ↔ (nodeText style g node).toList.head? ≠ some '[' := by
  unfold nodeText
  split
  · rename_i h
    simp [h]
  · split
    · rename_i h
      simp [h]
    · rename_i hentry hexit
      simp [hentry, hexit]

/-- What the line of a node shows: its number, its text and whether it is dead. -/
def shownNode (style : Style) (g : Graph) (dead : List Nat) (node : Nat) : Nat × String × Bool :=
  (node, nodeText style g node, decide (node ∈ dead))

theorem nodeLine_append_inj {style : Style} {g g' : Graph} {dead dead' : List Nat} {m n : Nat}
    {u v : List Char}
    (h : (nodeLine style g dead m).toList ++ u = (nodeLine style g' dead' n).toList ++ v) :
    shownNode style g dead m = shownNode style g' dead' n ∧ u = v := by
  simp only [nodeLine, String.toList_append, List.append_assoc] at h
  obtain ⟨hnode, h⟩ := Text.repr_append_inj (by simp) (by simp) h
  obtain ⟨htext, h⟩ := quoted_append_inj (List.append_cancel_left h)
  have hboundary : (m = g.entry ∨ m = g.exit) ↔ (n = g'.entry ∨ n = g'.exit) := by
    rw [boundary_iff style, htext, boundary_iff style]
  simp only [hboundary, List.append_cancel_left_eq] at h
  -- A comma goes on with the filling, and a bracket ends the line.
  have hdead : (m ∈ dead ↔ n ∈ dead') ∧ u = v := by
    by_cases hm : m ∈ dead <;> by_cases hn : n ∈ dead' <;> simp [hm, hn] at h ⊢ <;> exact h
  refine ⟨?_, hdead.2⟩
  rw [shownNode, shownNode, htext, hnode, decide_eq_decide.mpr (hnode ▸ hdead.1)]

/-! ## Lines of edges -/

/-- The kind of an edge that is taken on a condition. -/
def branch? (kind : EdgeKind) : Option EdgeKind := if kind.isUnconditional then none else some kind

/-- What the line of an edge shows: its ends, and its kind if it is taken on a condition. -/
def shownEdge (e : Edge) : Nat × Nat × Option EdgeKind := (e.source, e.target, branch? e.kind)

theorem edgeText?_inj {j k : EdgeKind} (h : edgeText? j = edgeText? k) : branch? j = branch? k := by
  cases j <;> cases k
  case switchCase.switchCase m n =>
    have hint := Text.int_repr_inj (congrArg String.toList (Option.some.inj h))
    rw [Int32.toInt_inj.mp hint]
  case switchCase.ifTrue | switchCase.ifFalse | switchCase.switchDefault =>
    exact absurd (Option.some.inj h) (Text.int_repr_ne (by decide))
  case ifTrue.switchCase | ifFalse.switchCase | switchDefault.switchCase =>
    exact absurd (Option.some.inj h).symm (Text.int_repr_ne (by decide))
  all_goals simp [edgeText?, branch?, EdgeKind.isUnconditional] at h ⊢

theorem quote_not_mem {kind : EdgeKind} {text : String} (h : edgeText? kind = some text) :
    '"' ∉ text.toList := by
  cases kind <;> simp only [edgeText?, Option.some.injEq, reduceCtorEq] at h <;> subst h
  case switchCase n => exact fun hmem => absurd (Text.mem_int_repr hmem) (by decide)
  all_goals decide

def Style.texts (style : Style) : List String :=
  [style.nodeShape, style.boundaryShape, style.deadColor, style.unconditionalEdge,
    style.conditionalEdge]

/-- No text of the style has a character that could end a quote, an attribute or a line. -/
def Style.Plain (style : Style) : Prop :=
  ∀ text ∈ style.texts, ∀ c ∈ ['"', '\\', ',', '[', ']', ';', '\n'], c ∉ text.toList

theorem Style.Plain.edgeStyle {style : Style} (h : style.Plain) (kind : EdgeKind) :
    ∀ c ∈ (edgeStyle style kind).toList, c ≠ ',' ∧ c ≠ ']' := by
  have hmem : Drawing.edgeStyle style kind ∈ style.texts := by
    unfold Drawing.edgeStyle
    split <;> simp [texts]
  intro c hc
  constructor <;> rintro rfl <;> exact h _ hmem _ (by simp) hc

theorem edgeLine_append_inj {style : Style} (hplain : style.Plain) {e f : Edge} {u v : List Char}
    (h : (edgeLine style e).toList ++ u = (edgeLine style f).toList ++ v) :
    shownEdge e = shownEdge f ∧ u = v := by
  simp only [edgeLine, String.toList_append, List.append_assoc] at h
  obtain ⟨hsource, h⟩ := Text.repr_append_inj (by simp) (by simp) h
  obtain ⟨htarget, h⟩ := Text.repr_append_inj (by simp) (by simp) (List.append_cancel_left h)
  -- A comma goes on with the label, and a bracket ends the line.
  obtain ⟨-, h⟩ := Text.append_inj_of_ends (hplain.edgeStyle e.kind) (hplain.edgeStyle f.kind)
    (by cases edgeText? e.kind <;> simp) (by cases edgeText? f.kind <;> simp)
    (List.append_cancel_left h)
  suffices hlabel : edgeText? e.kind = edgeText? f.kind ∧ u = v by
    refine ⟨?_, hlabel.2⟩
    rw [shownEdge, shownEdge, hsource, htarget, edgeText?_inj hlabel.1]
  cases he : edgeText? e.kind with
  | none =>
    cases hf : edgeText? f.kind with
    | none => simpa [he, hf] using h
    | some t => simp [he, hf] at h
  | some s =>
    cases hf : edgeText? f.kind with
    | none => simp [he, hf] at h
    | some t =>
      simp only [he, hf, String.toList_append, List.append_assoc, List.append_cancel_left_eq] at h
      obtain ⟨htext, hrest⟩ := Text.append_inj_of_not_mem (quote_not_mem he) (quote_not_mem hf) h
      exact ⟨congrArg some (String.toList_inj.mp htext), by simpa using hrest⟩

/-! ## The whole drawing -/

def edgeLines (style : Style) (edges : List Edge) : List Char :=
  edges.flatMap (fun e => (edgeLine style e).toList) ++ "\x7d\n".toList

theorem toList_draw (style : Style) (g : Graph) (dead : List Nat) :
    (draw style g dead).toList =
      ("digraph cfg \x7b\n" ++ "node [shape=" ++ style.nodeShape ++ "];\n").toList ++
        (g.nodes.flatMap (fun node => (nodeLine style g dead node).toList) ++
          edgeLines style g.edges) := by
  unfold draw edgeLines
  rw [String.toList_append, String.toList_append, String.toList_append, String.toList_join,
    String.toList_join, List.flatMap_map, List.flatMap_map, List.append_assoc, List.append_assoc]

theorem edgeLines_ne (style : Style) (edges : List Edge) (g : Graph) (dead : List Nat) (node : Nat)
    (rest : List Char) : edgeLines style edges ≠ (nodeLine style g dead node).toList ++ rest := by
  intro h
  simp only [edgeLines, nodeLine, String.toList_append, List.append_assoc] at h
  cases edges with
  | nil =>
    rw [List.flatMap_nil, List.nil_append] at h
    exact absurd h.symm (Text.repr_append_ne (by simp))
  | cons e edges =>
    simp only [List.flatMap_cons, edgeLine, String.toList_append, List.append_assoc] at h
    obtain ⟨-, h⟩ := Text.repr_append_inj (by simp) (by simp) h
    simp at h

theorem draw_inj {style : Style} (hplain : style.Plain) {g g' : Graph} {dead dead' : List Nat}
    (h : draw style g dead = draw style g' dead') :
    g.nodes.map (shownNode style g dead) = g'.nodes.map (shownNode style g' dead') ∧
      g.edges.map shownEdge = g'.edges.map shownEdge := by
  have hlist := congrArg String.toList h
  rw [toList_draw, toList_draw, List.append_cancel_left_eq] at hlist
  obtain ⟨hnodes, hrest⟩ := Text.flatMap_append_inj (shownNode style g dead)
    (shownNode style g' dead') (fun m n u v => nodeLine_append_inj)
    (fun n v => edgeLines_ne style g.edges g' dead' n v)
    (fun m u => (edgeLines_ne style g'.edges g dead m u).symm) hlist
  have hclosing : ∀ (e : Edge) rest, (edgeLine style e).toList ++ rest ≠ "\x7d\n".toList := by
    intro e rest
    simp only [edgeLine, String.toList_append, List.append_assoc]
    exact Text.repr_append_ne (by simp)
  obtain ⟨hedges, -⟩ := Text.flatMap_append_inj shownEdge shownEdge
    (fun e f u v => edgeLine_append_inj hplain) (fun f v => (hclosing f v).symm) hclosing hrest
  exact ⟨hnodes, hedges⟩

theorem nodeText_body {style : Style} (hstyle : style.showStatements = true) {g : Graph}
    {node : Nat} {s : Stmt} (hs : g.stmt? node = some s)
    (hbody : ¬ (node = g.entry ∨ node = g.exit)) :
    nodeText style g node = "[" ++ node.repr ++ "]" ++ (" " ++ s.text) := by
  rw [not_or] at hbody
  simp only [nodeText, hbody.1, hbody.2, if_false, hstyle, hs]

theorem text_of_nodeText {style : Style} (hstyle : style.showStatements = true) {g g' : Graph}
    (hentry : g.entry = g'.entry) {node : Nat} {s s' : Stmt} (hs : g.stmt? node = some s)
    (hs' : g'.stmt? node = some s') (h : nodeText style g node = nodeText style g' node) :
    s.text = s'.text := by
  have hexit : g.exit = g'.exit := congrArg (· + 1) hentry
  by_cases hbody : node = g.entry ∨ node = g.exit
  · have hbody' : node = g'.entry ∨ node = g'.exit := by rwa [← hentry, ← hexit]
    rw [Graph.stmt?, if_pos hbody] at hs
    rw [Graph.stmt?, if_pos hbody'] at hs'
    rw [← Option.some.inj hs, ← Option.some.inj hs']
  · have hbody' : ¬ (node = g'.entry ∨ node = g'.exit) := by rwa [← hentry, ← hexit]
    rw [nodeText_body hstyle hs hbody, nodeText_body hstyle hs' hbody'] at h
    have hlist := congrArg String.toList h
    simp only [String.toList_append, List.append_cancel_left_eq, String.toList_inj] at hlist
    exact hlist

/-- Two drawings in one style that are the same text show the same graph. -/
theorem draw_tells_graph {style : Style} (hstyle : style.showStatements = true)
    (hplain : style.Plain) {p p' : Procedure} {g g' : Graph} (hb : Graph.build p = .ok g)
    (hb' : Graph.build p' = .ok g') {dead dead' : List Nat}
    (h : draw style g dead = draw style g' dead') :
    g.size = g'.size ∧
    (∀ node < g.size, ∃ s s', g.stmt? node = some s ∧ g'.stmt? node = some s' ∧
      s.text = s'.text) ∧
    (∀ node < g.size, node ∈ dead ↔ node ∈ dead') ∧
    g.edges.map shownEdge = g'.edges.map shownEdge := by
  obtain ⟨hnodes, hedges⟩ := draw_inj hplain h
  have hsize : g.size = g'.size := by simpa [Graph.nodes] using congrArg List.length hnodes
  have hentry : g.entry = g'.entry := by
    rw [Graph.size_of_build hb, Graph.size_of_build hb'] at hsize
    rw [Graph.entry_of_build hb, Graph.entry_of_build hb']
    omega
  have hnode : ∀ node < g.size, nodeText style g node = nodeText style g' node ∧
      (node ∈ dead ↔ node ∈ dead') := by
    intro node hlt
    rw [Graph.nodes, Graph.nodes, ← hsize, List.map_inj_left] at hnodes
    simpa [shownNode] using hnodes node (List.mem_range.mpr hlt)
  refine ⟨hsize, ?_, fun node hlt => (hnode node hlt).2, hedges⟩
  intro node hlt
  obtain ⟨s, hs⟩ := Graph.stmt?_of_lt hb hlt
  obtain ⟨s', hs'⟩ := Graph.stmt?_of_lt hb' (hsize ▸ hlt)
  exact ⟨s, s', hs, hs', text_of_nodeText hstyle hentry hs hs' (hnode node hlt).1⟩

/-- Reads a length, as a field or off an array, and calls a method whose name looks like the end of
a line. -/
def readLength (length : Expr) : Procedure where
  vars := #[⟨"a", .reference⟩, ⟨"n", .int⟩]
  params := [⟨0⟩]
  body := #[
    .assign (.var ⟨1⟩) length,
    .switch ⟨1⟩ [(-1, 3)] 2,
    .call none "\"];\n\\" [],
    .ret none]
  params_known := by decide

def readLengthGraph (length : Expr) : Graph :=
  Graph.link (readLength length)
    ((readLength length).stmts.map (Graph.plainEdges (readLength length)))

theorem draw_readLength_same :
    let field := .field (some ⟨0⟩) "length"
    let length := .arrayLength ⟨0⟩
    Graph.build (readLength field) = .ok (readLengthGraph field) ∧
    Graph.build (readLength length) = .ok (readLengthGraph length) ∧
    Style.standard.showStatements = true ∧ Style.standard.Plain ∧
    draw .standard (readLengthGraph field) [2] = draw .standard (readLengthGraph length) [2, 9] ∧
    ∃ s s', (readLengthGraph field).stmt? 0 = some s ∧ (readLengthGraph length).stmt? 0 = some s' ∧
      s ≠ s' ∧ s.text = s'.text := by
  intro field length
  have hb : Graph.build (readLength field) = .ok (readLengthGraph field) := rfl
  have hb' : Graph.build (readLength length) = .ok (readLengthGraph length) := rfl
  have hplain : Style.standard.Plain := by simp [Style.Plain, Style.texts, Style.standard]
  have hdraw : draw .standard (readLengthGraph field) [2] =
      draw .standard (readLengthGraph length) [2, 9] := by decide +kernel
  obtain ⟨-, htexts, -⟩ := draw_tells_graph rfl hplain hb hb' hdraw
  obtain ⟨s, s', hs, hs', htext⟩ := htexts 0 (by decide)
  have hne : (readLengthGraph field).stmt? 0 ≠ (readLengthGraph length).stmt? 0 := by decide
  exact ⟨hb, hb', rfl, hplain, hdraw, s, s', hs, hs', fun he => hne (by rw [hs, hs', he]), htext⟩

end FlowFacts.Drawing
