import FlowFacts.Graph
import FlowFacts.Event

/-! # Building the graph of a procedure

Each statement gives its own list of edges or the fault that forbids it, and the graph
takes the first fault in the order of the body. Within a statement an unknown variable
comes first, then a condition that compares nothing, then the jumps in the order in which
they are written.
-/

namespace FlowFacts

/-- Why a procedure has no graph. Each cause names its statement. -/
inductive BuildError where
  | invalidTarget (stmt target : Nat)
  | duplicateCase (stmt : Nat) (label : Int32)
  | malformedCondition (stmt : Nat)
  | unknownVar (stmt : Nat) (v : Var)
deriving DecidableEq, Repr

def BuildError.message : BuildError → String
  | invalidTarget stmt target =>
    "statement " ++ stmt.repr ++ ": jump target " ++ target.repr ++ " is out of range"
  | duplicateCase stmt label =>
    "statement " ++ stmt.repr ++ ": duplicate switch case " ++ label.toInt.repr
  | malformedCondition stmt =>
    "statement " ++ stmt.repr ++ ": `if` condition must be a relational binary expression"
  | unknownVar stmt v => "statement " ++ stmt.repr ++ ": unknown variable " ++ v.text

namespace Graph

/-! ## Checks -/

/-- A jump has to end in the body. -/
def checkTarget (p : Procedure) (i target : Nat) : Except BuildError Nat :=
  if target < p.size then .ok target else .error (.invalidTarget i target)

/-- The variable that is written, then those that are read, have to be in the table. -/
def checkVars (p : Procedure) (s : Stmt) : Except BuildError Unit :=
  match (s.defines.toList ++ s.uses).find? (fun v => !p.knows v) with
  | some v => .error (.unknownVar s.index v)
  | none => .ok ()

def checkCondition (i : Nat) (cond : Expr) : Except BuildError Unit :=
  if cond.isCondition then .ok () else .error (.malformedCondition i)

/-! ## Edges of one statement -/

/-- Where control goes after statement `i`: to the next one, or to the exit after the last. -/
def next (p : Procedure) (i : Nat) : Nat := if i + 1 = p.size then p.size + 1 else i + 1

/-- The edges of the cases of a switch. No label may repeat one of `seen`. -/
def caseEdges (p : Procedure) (i : Nat) :
    List Int32 → List (Int32 × Nat) → Except BuildError (List Edge)
  | _, [] => .ok []
  | seen, (label, target) :: rest =>
    if label ∈ seen then .error (.duplicateCase i label)
    else do
      let target ← checkTarget p i target
      let later ← caseEdges p i (label :: seen) rest
      return ⟨i, target, .switchCase label⟩ :: later

/-- The edges that leave a statement, in order. -/
def edgesOf (p : Procedure) (s : Stmt) : Except BuildError (List Edge) := do
  checkVars p s
  match s.command with
  | .goto target =>
    let target ← checkTarget p s.index target
    return [⟨s.index, target, .goto⟩]
  | .branch cond target =>
    checkCondition s.index cond
    let target ← checkTarget p s.index target
    return [⟨s.index, target, .ifTrue⟩, ⟨s.index, next p s.index, .ifFalse⟩]
  | .switch _ cases otherwise =>
    let labelled ← caseEdges p s.index [] cases
    let otherwise ← checkTarget p s.index otherwise
    return labelled ++ [⟨s.index, otherwise, .switchDefault⟩]
  | .ret _ => return [⟨s.index, p.size + 1, .ret⟩]
  | .nop | .assign _ _ | .call _ _ _ => return [⟨s.index, next p s.index, .fallThrough⟩]

/-! ## The graph -/

/-- The edge that starts every run: to the first statement, or to the exit of an empty body. -/
def entryEdge (p : Procedure) : Edge := ⟨p.size, if p.size = 0 then 1 else 0, .entry⟩

/-- Sorts edges by target into a table of `n` lists. Each list keeps their order. -/
def byTarget (n : Nat) (edges : List Edge) : Array (List Edge) :=
  edges.foldr (fun e table => table.modify e.target (e :: ·)) (Array.replicate n [])

/-- The graph with the given edges of the statements. -/
def link (p : Procedure) (lists : List (List Edge)) : Graph where
  procedure := p
  outTable := (lists ++ [[entryEdge p], []]).toArray
  inTable := byTarget (lists.length + 2) (entryEdge p :: lists.flatten)

def build (p : Procedure) : Except BuildError Graph := do
  let lists ← p.stmts.mapM (edgesOf p)
  return link p lists

def builtEvent (g : Graph) : Event := .built g.size g.edges.length

end Graph

end FlowFacts
