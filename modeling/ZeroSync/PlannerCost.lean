/-
The cost of a plan, `getTotalCost` of `zql/src/planner`: `estimateCost` of the nodes of a
planner graph, with and without the costs that a connection keeps.

A connection keeps its cost under the branch pattern alone, and it is asked with other
selectivities by other branches: the cost of the plan is the same if it is not made to
differ by that (`getTotalCost_eq_uncached`).

Arithmetic is that of any numbers with the operations that the source uses. A node is
given by the nodes it gets its rows from, and a connection by its number.
-/
import ZeroSync.Memo
import Mathlib.Algebra.Order.Ring.Rat
import Mathlib.Data.Rat.Floor

namespace ZeroSync.Planner

open Memo

/-- The numbers of the costs. -/
class CostNumber (N : Type) extends Zero N, One N, Add N, Sub N, Mul N, Div N where
  min : N → N → N
  pow : N → N → N
  ceil : N → N
  /-- `<` -/
  less : N → N → Bool
  /-- `===` -/
  same : N → N → Bool

/-- The columns of a constraint. -/
abbrev PlannerConstraint := List String

def mergeConstraints : Option PlannerConstraint → Option PlannerConstraint → Option PlannerConstraint
  | none, b => b
  | some a, none => some a
  | some a, some b => some (a ++ b.filter (· ∉ a))

structure CostModelCost (N : Type) where
  startupCost : N
  rows : N
  fanout : List String → N

structure CostEstimate (N : Type) where
  startupCost : N
  scanEst : N
  cost : N
  returnedRows : N
  selectivity : N
  limit : Option N
  /-- `none` for a fan-in without inputs; to call it throws. -/
  fanout : Option (List String → N)

/-- A connection as it is when a plan is evaluated; the cost model is applied to its table,
sort and filters. -/
structure PlannerConnection (N : Type) where
  model : Option PlannerConstraint → CostModelCost N
  baseConstraints : Option PlannerConstraint
  selectivity : N
  limit : Option N
  /-- The constraints by branch pattern. -/
  constraints : List ℕ → Option PlannerConstraint

inductive JoinType
  | semi
  | flipped
  deriving DecidableEq

inductive FanInType
  | FI
  | UFI
  deriving DecidableEq

/-- `PlannerNode`, but for the terminus. -/
inductive PlannerNode
  | connection (id : ℕ)
  | join (type : JoinType) (parent child : PlannerNode) (childConstraint : PlannerConstraint)
  | fanOut (input : PlannerNode)
  | fanIn (type : FanInType) (inputs : List PlannerNode)

/-- What a connection is asked. -/
structure Request (N : Type) where
  connection : ℕ
  downstreamChildSelectivity : N
  branchPattern : List ℕ

section

variable {N : Type} [CostNumber N]

/-- `estimateCost` of a connection that keeps nothing. -/
def PlannerConnection.estimateCost (c : PlannerConnection N) (downstreamChildSelectivity : N) (branchPattern : List ℕ) :
    CostEstimate N :=
  let mergedConstraint := mergeConstraints c.baseConstraints (c.constraints branchPattern)
  let model := c.model mergedConstraint
  { startupCost := model.startupCost
    scanEst := match c.limit with
      | none => model.rows
      | some limit => CostNumber.min model.rows (limit / downstreamChildSelectivity)
    cost := 0
    returnedRows := model.rows
    selectivity := c.selectivity
    limit := c.limit
    fanout := some model.fanout }

/-- What a join says of the costs of its inputs. -/
def joinCost (chunkSize : N) (type : JoinType) (downstreamChildSelectivity : N) (parent child : CostEstimate N) :
    CostEstimate N :=
  let pulled (limit : N) := if CostNumber.same downstreamChildSelectivity 0 then 0 else limit / downstreamChildSelectivity
  match type with
  | .semi =>
    { startupCost := parent.startupCost
      scanEst := match parent.limit with
        | none => parent.returnedRows
        | some limit => CostNumber.min parent.returnedRows (pulled limit)
      cost := parent.cost + parent.scanEst * (child.startupCost + child.cost + child.scanEst)
      returnedRows := parent.returnedRows * child.selectivity
      selectivity := child.selectivity * parent.selectivity
      limit := parent.limit
      fanout := parent.fanout }
  | .flipped =>
    { startupCost := child.startupCost
      scanEst := match parent.limit with
        | none => parent.returnedRows * child.returnedRows
        | some limit => CostNumber.min (parent.returnedRows * child.returnedRows) (pulled limit)
      cost := child.cost + CostNumber.ceil (child.scanEst / chunkSize) * parent.startupCost
        + child.scanEst * (parent.cost + parent.scanEst)
      returnedRows := parent.returnedRows * child.returnedRows
      selectivity := parent.selectivity * child.selectivity
      limit := parent.limit
      fanout := parent.fanout }

/-- The totals of a fan-in after some inputs. -/
structure FanInTotals (N : Type) where
  returnedRows : N
  cost : N
  scanEst : N
  startupCost : N
  noMatchProb : N
  limit : Option N
  fanout : Option (List String → N)

def FanInTotals.start : FanInTotals N := ⟨0, 0, 0, 0, 1, none, none⟩

/-- One input more. -/
def FanInTotals.add (type : FanInType) (totals : FanInTotals N) (cost : CostEstimate N) : FanInTotals N :=
  let combine (a b : N) := match type with
    | .FI => if CostNumber.less a b then b else a
    | .UFI => a + b
  { returnedRows := combine totals.returnedRows cost.returnedRows
    cost := combine totals.cost cost.cost
    scanEst := combine totals.scanEst cost.scanEst
    startupCost := combine totals.startupCost cost.startupCost
    noMatchProb := totals.noMatchProb * (1 - cost.selectivity)
    limit := cost.limit
    fanout := cost.fanout }

def FanInTotals.estimate (totals : FanInTotals N) : CostEstimate N where
  startupCost := totals.startupCost
  scanEst := totals.scanEst
  cost := totals.cost
  returnedRows := totals.returnedRows
  selectivity := 1 - totals.noMatchProb
  limit := totals.limit
  fanout := totals.fanout

/-- Whether the limit of an input is as the ones before. -/
def sameLimit : Option N → Option N → Bool
  | none, _ => true
  | some _, none => false
  | some a, some b => CostNumber.same b a

/-- A cost, from what the connections answer. -/
abbrev Estimate (N R : Type) := ExceptT String (Prog (Request N) (CostEstimate N)) R

mutual

/-- `estimateCost` of a node. -/
def PlannerNode.estimateCost (chunkSize : N) : PlannerNode → N → List ℕ → Estimate N (CostEstimate N)
  | .connection id, downstreamChildSelectivity, branchPattern =>
    ExceptT.lift (Prog.question ⟨id, downstreamChildSelectivity, branchPattern⟩)
  | .join type parent child childConstraint, downstreamChildSelectivity, branchPattern => do
    let childCost ← child.estimateCost chunkSize 1 branchPattern
    match childCost.fanout with
    | none => throw "Failed to set fanout model"
    | some fanout =>
      let scaledChildSelectivity := 1 - CostNumber.pow (1 - childCost.selectivity) (fanout childConstraint)
      let parentCost ← parent.estimateCost chunkSize
        (match type with
          | .flipped => 1 * downstreamChildSelectivity
          | .semi => scaledChildSelectivity * downstreamChildSelectivity)
        branchPattern
      return joinCost chunkSize type downstreamChildSelectivity parentCost childCost
  | .fanOut input, downstreamChildSelectivity, branchPattern =>
    input.estimateCost chunkSize downstreamChildSelectivity branchPattern
  | .fanIn type inputs, downstreamChildSelectivity, branchPattern => do
    let totals ← estimateInputs chunkSize type downstreamChildSelectivity branchPattern 0 .start inputs
    return totals.estimate

/-- The loop of a fan-in over its inputs, from the `i`th on. -/
def estimateInputs (chunkSize : N) (type : FanInType) (downstreamChildSelectivity : N) (branchPattern : List ℕ) :
    ℕ → FanInTotals N → List PlannerNode → Estimate N (FanInTotals N)
  | _, totals, [] => return totals
  | i, totals, input :: inputs => do
    let branch := match type with
      | .FI => 0
      | .UFI => i
    let cost ← input.estimateCost chunkSize downstreamChildSelectivity (branch :: branchPattern)
    if sameLimit totals.limit cost.limit then
      estimateInputs chunkSize type downstreamChildSelectivity branchPattern (i + 1) (totals.add type cost) inputs
    else throw "All FanIn inputs should have the same limit"

end

/-! ## The cost of a plan -/

/-- A planner graph whose constraints are propagated, with the joins and fan-ins of a plan. -/
structure PlannerGraph (N : Type) where
  connections : ℕ → PlannerConnection N
  /-- The input of the terminus. -/
  root : PlannerNode
  /-- `getMultiConstraintChunkSize()` -/
  chunkSize : N

namespace PlannerGraph

def totalCost (g : PlannerGraph N) : Estimate N N := do
  let estimate ← g.root.estimateCost g.chunkSize 1 []
  return estimate.cost + estimate.startupCost

/-- What a connection says to a request of its own. -/
def answer (g : PlannerGraph N) (r : Request N) : CostEstimate N :=
  (g.connections r.connection).estimateCost r.downstreamChildSelectivity r.branchPattern

/-- `getTotalCost`: a connection keeps its costs under the branch pattern. -/
def getTotalCost (g : PlannerGraph N) : Except String N :=
  (g.totalCost.run.memo (fun r => (r.connection, r.branchPattern)) g.answer fun _ => none).1

/-- `getTotalCost` where nothing is kept. -/
def getTotalCostUncached (g : PlannerGraph N) : Except String N := g.totalCost.run.fresh g.answer

/-- What the connections are asked where nothing is kept. -/
def requests (g : PlannerGraph N) : List (Request N) := g.totalCost.run.asked g.answer

/-- A connection that is asked again for a branch pattern would scan as many rows. -/
def AskedAlike (g : PlannerGraph N) : Prop :=
  ∀ r ∈ g.requests, ∀ r' ∈ g.requests, r.connection = r'.connection → r.branchPattern = r'.branchPattern →
    (g.answer r).scanEst = (g.answer r').scanEst

theorem answer_eq {g : PlannerGraph N} {r r' : Request N} (hconnection : r.connection = r'.connection)
    (hpattern : r.branchPattern = r'.branchPattern) (hscan : (g.answer r).scanEst = (g.answer r').scanEst) :
    g.answer r = g.answer r' := by
  unfold answer PlannerConnection.estimateCost at hscan ⊢
  rw [hconnection, hpattern] at hscan ⊢
  simp only [CostEstimate.mk.injEq, true_and, and_true]
  exact hscan

/-- **To keep costs does not change the cost of a plan** in which no connection would scan
other numbers of rows for one branch pattern. -/
theorem getTotalCost_eq_uncached {g : PlannerGraph N} (h : g.AskedAlike) : g.getTotalCost = g.getTotalCostUncached :=
  Prog.memo_eq_fresh _ fun r hr r' hr' hkey =>
    answer_eq (Prod.mk.inj hkey).1 (Prod.mk.inj hkey).2 (h r hr r' hr' (Prod.mk.inj hkey).1 (Prod.mk.inj hkey).2)

end PlannerGraph

end

/-! ## Two branches of one fan-in -/

/-- Rational numbers, with powers to natural numbers only. -/
scoped instance : CostNumber ℚ where
  min a b := if a ≤ b then a else b
  pow a b := a ^ b.num.toNat
  ceil a := ⌈a⌉
  less a b := a < b
  same a b := a = b

/-- A table with so many rows, of which a filter passes this fraction. -/
def scanOf (rows selectivity : ℚ) : PlannerConnection ℚ where
  model _ := ⟨0, rows, fun _ => 1⟩
  baseConstraints := none
  selectivity := selectivity
  limit := some 1
  constraints _ := none

/-- One row of those that have an `a` or a `b`. -/
def eitherGraph (selectivity : ℚ) : PlannerGraph ℚ where
  connections
    | 0 => scanOf 100 1
    | 1 => scanOf 10 (1 / 2)
    | _ => scanOf 10 selectivity
  root := .fanIn .FI
    [.join .semi (.fanOut (.connection 0)) (.connection 1) ["a"], .join .semi (.fanOut (.connection 0)) (.connection 2) ["b"]]
  chunkSize := 500

/-- Two branches that are passed by equal shares ask the first table alike. -/
theorem getTotalCost_eq_of_equal_branches :
    (eitherGraph (1 / 2)).getTotalCost = (eitherGraph (1 / 2)).getTotalCostUncached :=
  PlannerGraph.getTotalCost_eq_uncached (by unfold PlannerGraph.AskedAlike; decide +kernel)

/-- The second branch has to scan 4 rows for one, and gets the cost of the first one's 2. -/
theorem getTotalCost_ne_of_branches : ¬∀ g : PlannerGraph ℚ, g.getTotalCost = g.getTotalCostUncached := by
  intro hall
  have hkept : (eitherGraph (1 / 4)).getTotalCost = .ok 2 := by decide +kernel
  have huncached : (eitherGraph (1 / 4)).getTotalCostUncached = .ok 4 := by decide +kernel
  have heq := hall (eitherGraph (1 / 4))
  rw [hkept, huncached] at heq
  cases heq

end ZeroSync.Planner
