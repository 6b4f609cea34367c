/-
Where the walk of `findFIAndJoins` gets from the fan-out of an or (`Branches.walk`): along
the joins of each branch, into an or that it meets but not past it, and from the last node
of each branch to the fan-in. A walk from the fan-out visits these nodes and no others
(`findFIAndJoins_visits`).
-/
import ZeroSync.PlanGraphBuilt

namespace ZeroSync.PlanGraph

/-- An or of a chain. -/
structure Or where
  fanOut : ℕ
  fanIn : ℕ
  branches : Branches

mutual

/-- The ors of a chain, those of subqueries too. -/
def Chain.ors : Chain → List Or
  | .nil => []
  | .join _ child rest => child.ors ++ rest.ors
  | .or fanOut fanIn branches rest => ⟨fanOut, fanIn, branches⟩ :: (branches.ors ++ rest.ors)

def Branches.ors : Branches → List Or
  | .nil => []
  | .cons branch branches => branch.ors ++ branches.ors

end

mutual

/-- The joins of a chain, without those of subqueries. -/
def Chain.joins : Chain → List ℕ
  | .nil => []
  | .join i _ rest => i :: rest.joins
  | .or _ _ branches rest => branches.joins ++ rest.joins

def Branches.joins : Branches → List ℕ
  | .nil => []
  | .cons branch branches => branch.joins ++ branches.joins

end

/-- Where a walk gets from the last node of a branch. -/
def exitWalk (fanIn : ℕ) : Option PlannerNode → List PlannerNode
  | none => []
  | some (.join i) => [.join i, .fanIn fanIn]
  | some node => [node]

mutual

/-- Where a walk gets from the first node of a chain, with a fan-in after the chain. -/
def Chain.walk (fanIn : ℕ) : Chain → List PlannerNode
  | .nil => [.fanIn fanIn]
  | .join i _ rest => .join i :: rest.walk fanIn
  | .or fanOut fanIn branches _ => .fanOut fanOut :: branches.walk fanIn

/-- Where a walk gets from a fan-out. -/
def Branches.walk (fanIn : ℕ) : Branches → List PlannerNode
  | .nil => []
  | .cons branch branches => branch.walk fanIn ++ exitWalk fanIn branch.exit ++ branches.walk fanIn

end

/-- What a walk goes on to. -/
def PlannerGraph.successors (g : PlannerGraph) : PlannerNode → List PlannerNode
  | .join i => g.outputs (.join i)
  | .fanOut i => g.outputs (.fanOut i)
  | .connection _ | .fanIn _ | .terminus => []

/-! ## Ors of a wired chain -/

/-- The nodes of an or. -/
def Or.nodes (or : Or) : List PlannerNode := .fanOut or.fanOut :: .fanIn or.fanIn :: or.branches.nodes

/-- The wires between the fan-out and the fan-in of an or. -/
structure Or.Wired (outputs : PlannerNode → List PlannerNode) (or : Or) : Prop where
  fanOut : outputs (.fanOut or.fanOut) = or.branches.ends
  branches : or.branches.Wired outputs (some (.fanIn or.fanIn))

mutual

theorem Chain.Wired.of_mem_ors {outputs : PlannerNode → List PlannerNode} {chain : Chain} {next : Option PlannerNode}
    (h : chain.Wired outputs next) {or : Or} (hor : or ∈ chain.ors) : or.Wired outputs := by
  match chain with
  | .nil => cases hor
  | .join i child rest =>
    obtain hor | hor := List.mem_append.1 hor
    · exact h.2.1.of_mem_ors hor
    · exact h.2.2.of_mem_ors hor
  | .or fanOut fanIn branches rest =>
    obtain rfl | hor := List.mem_cons.1 hor
    · exact ⟨h.2.1, h.2.2.1⟩
    · obtain hor | hor := List.mem_append.1 hor
      · exact Branches.Wired.of_mem_ors h.2.2.1 hor
      · exact h.2.2.2.of_mem_ors hor

theorem Branches.Wired.of_mem_ors {outputs : PlannerNode → List PlannerNode} {branches : Branches}
    {next : Option PlannerNode} (h : branches.Wired outputs next) {or : Or} (hor : or ∈ branches.ors) :
    or.Wired outputs := by
  match branches with
  | .nil => cases hor
  | .cons branch branches =>
    obtain hor | hor := List.mem_append.1 hor
    · exact h.2.1.of_mem_ors hor
    · exact Branches.Wired.of_mem_ors h.2.2 hor

end

mutual

theorem Chain.sublist_of_mem_ors {chain : Chain} {or : Or} (hor : or ∈ chain.ors) : or.nodes.Sublist chain.nodes := by
  match chain with
  | .nil => cases hor
  | .join i child rest =>
    obtain hor | hor := List.mem_append.1 hor
    · exact ((Chain.sublist_of_mem_ors hor).trans (List.sublist_append_left _ _)).cons _
    · exact ((Chain.sublist_of_mem_ors hor).trans (List.sublist_append_right _ _)).cons _
  | .or fanOut fanIn branches rest =>
    obtain rfl | hor := List.mem_cons.1 hor
    · exact ((List.sublist_append_left _ _).cons_cons _).cons_cons _
    · obtain hor | hor := List.mem_append.1 hor
      · exact (((Branches.sublist_of_mem_ors hor).trans (List.sublist_append_left _ _)).cons _).cons _
      · exact (((Chain.sublist_of_mem_ors hor).trans (List.sublist_append_right _ _)).cons _).cons _

theorem Branches.sublist_of_mem_ors {branches : Branches} {or : Or} (hor : or ∈ branches.ors) :
    or.nodes.Sublist branches.nodes := by
  match branches with
  | .nil => cases hor
  | .cons branch branches =>
    obtain hor | hor := List.mem_append.1 hor
    · exact (Chain.sublist_of_mem_ors hor).trans (List.sublist_append_left _ _)
    · exact (Branches.sublist_of_mem_ors hor).trans (List.sublist_append_right _ _)

end

mutual

theorem Chain.exists_or {chain : Chain} {node : PlannerNode} (hnode : node ∈ chain.nodes) :
    (∃ i, node = .join i) ∨ ∃ or ∈ chain.ors, node = .fanOut or.fanOut ∨ node = .fanIn or.fanIn := by
  match chain with
  | .nil => cases hnode
  | .join i child rest =>
    obtain rfl | hnode := List.mem_cons.1 hnode
    · exact .inl ⟨i, rfl⟩
    · obtain hnode | hnode := List.mem_append.1 hnode
      · exact (Chain.exists_or hnode).imp_right fun ⟨or, hor, heq⟩ => ⟨or, List.mem_append_left _ hor, heq⟩
      · exact (Chain.exists_or hnode).imp_right fun ⟨or, hor, heq⟩ => ⟨or, List.mem_append_right _ hor, heq⟩
  | .or fanOut fanIn branches rest =>
    obtain rfl | hnode := List.mem_cons.1 hnode
    · exact .inr ⟨_, List.mem_cons_self, .inl rfl⟩
    · obtain rfl | hnode := List.mem_cons.1 hnode
      · exact .inr ⟨_, List.mem_cons_self, .inr rfl⟩
      · obtain hnode | hnode := List.mem_append.1 hnode
        · exact (Branches.exists_or hnode).imp_right fun ⟨or, hor, heq⟩ =>
            ⟨or, List.mem_cons_of_mem _ (List.mem_append_left _ hor), heq⟩
        · exact (Chain.exists_or hnode).imp_right fun ⟨or, hor, heq⟩ =>
            ⟨or, List.mem_cons_of_mem _ (List.mem_append_right _ hor), heq⟩

theorem Branches.exists_or {branches : Branches} {node : PlannerNode} (hnode : node ∈ branches.nodes) :
    (∃ i, node = .join i) ∨ ∃ or ∈ branches.ors, node = .fanOut or.fanOut ∨ node = .fanIn or.fanIn := by
  match branches with
  | .nil => cases hnode
  | .cons branch branches =>
    obtain hnode | hnode := List.mem_append.1 hnode
    · exact (Chain.exists_or hnode).imp_right fun ⟨or, hor, heq⟩ => ⟨or, List.mem_append_left _ hor, heq⟩
    · exact (Branches.exists_or hnode).imp_right fun ⟨or, hor, heq⟩ => ⟨or, List.mem_append_right _ hor, heq⟩

end

/-! ## Where a walk gets -/

theorem Chain.Wired.exit_outputs {outputs : PlannerNode → List PlannerNode} {chain : Chain} {next node : PlannerNode}
    (h : chain.Wired outputs (some next)) (hexit : chain.exit = some node) : outputs node = [next] := by
  match chain with
  | .nil => cases hexit
  | .join i child rest =>
    obtain hlast | ⟨rfl, rfl⟩ := exit_getD.1 hexit
    · exact h.2.2.exit_outputs hlast
    · exact h.1 next rfl
  | .or fanOut fanIn branches rest =>
    obtain hlast | ⟨rfl, rfl⟩ := exit_getD.1 hexit
    · exact h.2.2.2.exit_outputs hlast
    · exact h.1 next rfl

variable {g : PlannerGraph} {fanIn : ℕ}

theorem Chain.exists_entry (chain : Chain) (next : PlannerNode) : ∃ node, chain.entry (some next) = some node := by
  cases chain with
  | nil | join | or => exact ⟨_, rfl⟩

theorem Chain.entry_mem_walk {chain : Chain} {node : PlannerNode} (h : chain.entry (some (.fanIn fanIn)) = some node) :
    node ∈ chain.walk fanIn := by
  cases chain with
  | nil =>
    obtain rfl := Option.some.inj h
    exact List.mem_singleton_self _
  | join | or =>
    obtain rfl := Option.some.inj h
    exact List.mem_cons_self

theorem mem_exitWalk {exit : Option PlannerNode} {node : PlannerNode} :
    node ∈ exitWalk fanIn exit ↔ exit = some node ∨ node = .fanIn fanIn ∧ ∃ i, exit = some (.join i) := by
  match exit with
  | none => simp [exitWalk]
  | some (.join i) => simp [exitWalk, eq_comm]
  | some (.connection i) | some (.fanOut i) | some (.fanIn i) | some .terminus => simp [exitWalk, eq_comm]

theorem Branches.ends_subset_walk {branches : Branches} {next : Option PlannerNode}
    (h : branches.Wired g.outputs next) {node : PlannerNode} (hnode : node ∈ branches.ends) :
    node ∈ branches.walk fanIn := by
  match branches with
  | .nil => cases hnode
  | .cons branch branches =>
    obtain hnode | hnode := List.mem_append.1 hnode
    · obtain hnode | hnode := List.mem_append.1 hnode
      · rw [Option.mem_toList, ← Chain.entry_of_ne h.1 (some (.fanIn fanIn))] at hnode
        exact List.mem_append_left _ (List.mem_append_left _ (Chain.entry_mem_walk hnode))
      · exact List.mem_append_left _ (List.mem_append_right _ (mem_exitWalk.2 (.inl (Option.mem_toList.1 hnode))))
    · exact List.mem_append_right _ (Branches.ends_subset_walk h.2.2 hnode)

theorem exitWalk_closed {chain : Chain} (h : chain.Wired g.outputs (some (.fanIn fanIn))) {x y : PlannerNode}
    (hx : x ∈ exitWalk fanIn chain.exit) (hy : y ∈ g.successors x) : y ∈ exitWalk fanIn chain.exit := by
  obtain hexit | ⟨rfl, -⟩ := mem_exitWalk.1 hx
  · obtain ⟨-, ⟨i, rfl⟩ | ⟨i, rfl⟩⟩ := Chain.exit_mem hexit
    · rw [PlannerGraph.successors, h.exit_outputs hexit, List.mem_singleton] at hy
      exact mem_exitWalk.2 (.inr ⟨hy, i, hexit⟩)
    · cases hy
  · cases hy

mutual

theorem Chain.walk_closed {fanIn : ℕ} {chain : Chain} (h : chain.Wired g.outputs (some (.fanIn fanIn)))
    {x y : PlannerNode} (hx : x ∈ chain.walk fanIn) (hy : y ∈ g.successors x) : y ∈ chain.walk fanIn := by
  match chain with
  | .nil =>
    rw [List.mem_singleton.1 hx] at hy
    cases hy
  | .join i child rest =>
    obtain rfl | hx := List.mem_cons.1 hx
    · obtain ⟨node, hnode⟩ := rest.exists_entry (.fanIn fanIn)
      rw [PlannerGraph.successors, h.1 node hnode, List.mem_singleton] at hy
      subst hy
      exact List.mem_cons_of_mem _ (Chain.entry_mem_walk hnode)
    · exact List.mem_cons_of_mem _ (Chain.walk_closed h.2.2 hx hy)
  | .or fanOut fanIn' branches rest =>
    obtain rfl | hx := List.mem_cons.1 hx
    · rw [PlannerGraph.successors, h.2.1] at hy
      exact List.mem_cons_of_mem _ (Branches.ends_subset_walk h.2.2.1 hy)
    · exact List.mem_cons_of_mem _ (Branches.walk_closed h.2.2.1 hx hy)

theorem Branches.walk_closed {fanIn : ℕ} {branches : Branches} (h : branches.Wired g.outputs (some (.fanIn fanIn)))
    {x y : PlannerNode} (hx : x ∈ branches.walk fanIn) (hy : y ∈ g.successors x) : y ∈ branches.walk fanIn := by
  match branches with
  | .nil => cases hx
  | .cons branch branches =>
    obtain hx | hx := List.mem_append.1 hx
    · obtain hx | hx := List.mem_append.1 hx
      · exact List.mem_append_left _ (List.mem_append_left _ (Chain.walk_closed h.2.1 hx hy))
      · exact List.mem_append_left _ (List.mem_append_right _ (exitWalk_closed h.2.1 hx hy))
    · exact List.mem_append_right _ (Branches.walk_closed h.2.2 hx hy)

end

mutual

theorem Chain.walk_reached {fanIn : ℕ} {chain : Chain} (h : chain.Wired g.outputs (some (.fanIn fanIn)))
    {S : PlannerNode → Prop} (hS : ∀ x, S x → ∀ y ∈ g.successors x, S y)
    (hentry : ∀ node ∈ chain.entry (some (.fanIn fanIn)), S node) {x : PlannerNode}
    (hx : x ∈ chain.walk fanIn) : S x := by
  match chain with
  | .nil =>
    rw [List.mem_singleton.1 hx]
    exact hentry _ rfl
  | .join i child rest =>
    have hi : S (.join i) := hentry _ rfl
    obtain rfl | hx := List.mem_cons.1 hx
    · exact hi
    · refine Chain.walk_reached h.2.2 hS (fun node hnode => hS _ hi node ?_) hx
      rw [PlannerGraph.successors, h.1 node hnode]
      exact List.mem_singleton_self _
  | .or fanOut fanIn' branches rest =>
    have hfanOut : S (.fanOut fanOut) := hentry _ rfl
    obtain rfl | hx := List.mem_cons.1 hx
    · exact hfanOut
    · refine Branches.walk_reached h.2.2.1 hS (fun node hnode => hS _ hfanOut node ?_) hx
      rwa [PlannerGraph.successors, h.2.1]

theorem Branches.walk_reached {fanIn : ℕ} {branches : Branches} (h : branches.Wired g.outputs (some (.fanIn fanIn)))
    {S : PlannerNode → Prop} (hS : ∀ x, S x → ∀ y ∈ g.successors x, S y) (hends : ∀ node ∈ branches.ends, S node)
    {x : PlannerNode} (hx : x ∈ branches.walk fanIn) : S x := by
  match branches with
  | .nil => cases hx
  | .cons branch branches =>
    have hexit : ∀ node ∈ branch.exit, S node := fun node hnode =>
      hends node (List.mem_append_left _ (List.mem_append_right _ (Option.mem_toList.2 hnode)))
    obtain hx | hx := List.mem_append.1 hx
    · obtain hx | hx := List.mem_append.1 hx
      · refine Chain.walk_reached h.2.1 hS (fun node hnode => hends node ?_) hx
        rw [Chain.entry_of_ne h.1] at hnode
        exact List.mem_append_left _ (List.mem_append_left _ (Option.mem_toList.2 hnode))
      · obtain hlast | ⟨rfl, i, hlast⟩ := mem_exitWalk.1 hx
        · exact hexit x hlast
        · refine hS _ (hexit _ hlast) _ ?_
          rw [PlannerGraph.successors, h.2.1.exit_outputs hlast]
          exact List.mem_singleton_self _
    · exact Branches.walk_reached h.2.2 hS (fun node hnode => hends node (List.mem_append_right _ hnode)) hx

end

/-! ## The walk as a search -/

/-- The number of a fan-in. -/
def fanInOf : PlannerNode → Option ℕ
  | .fanIn i => some i
  | _ => none

def joinOf : PlannerNode → Option ℕ
  | .join i => some i
  | _ => none

/-- The walk that has visited some nodes. -/
def Walk.of (queue visited : List PlannerNode) : Walk where
  queue
  visited
  fi := (visited.filterMap fanInOf).getLast?
  joinsBetween := visited.filterMap joinOf

theorem Walk.round_of (g : PlannerGraph) (node : PlannerNode) (queue visited : List PlannerNode) :
    (Walk.of (node :: queue) visited).round g node queue =
      if node ∈ visited then Walk.of queue visited
      else Walk.of (queue ++ g.successors node) (visited ++ [node]) := by
  have hvisited : (Walk.of (node :: queue) visited).visited = visited := rfl
  unfold Walk.round
  rw [hvisited]
  split
  · rfl
  · cases node <;> simp [Walk.of, PlannerGraph.successors, fanInOf, joinOf, List.filterMap_append]

theorem Walk.run_of (g : PlannerGraph) (fuel : ℕ) (queue visited : List PlannerNode) :
    ∃ queue', Walk.run g fuel (Walk.of queue visited) =
      Walk.of queue' (BreadthFirst.visit g.successors fuel queue visited) := by
  induction fuel generalizing queue visited with
  | zero => exact ⟨queue, rfl⟩
  | succ fuel ih =>
    cases queue with
    | nil => exact ⟨[], rfl⟩
    | cons node queue =>
      have hrun : Walk.run g (fuel + 1) (Walk.of (node :: queue) visited) =
          Walk.run g fuel ((Walk.of (node :: queue) visited).round g node queue) := rfl
      rw [hrun, Walk.round_of, BreadthFirst.visit]
      split
      · exact ih queue visited
      · exact ih _ _

/-- The nodes of a graph that are in a chain, and what is after the chain. -/
def PlannerGraph.nodes (g : PlannerGraph) : Finset PlannerNode :=
  (Finset.range g.numbers.joins).image .join ∪ (Finset.range g.numbers.fanOuts).image .fanOut ∪
    (Finset.range g.numbers.fanIns).image .fanIn ∪ {.terminus}

theorem PlannerGraph.mem_nodes {g : PlannerGraph} {node : PlannerNode} :
    node ∈ g.nodes ↔ node.Below g.numbers ∨ node = .terminus := by
  cases node <;> simp [PlannerGraph.nodes, PlannerNode.Below]

theorem PlannerGraph.sum_successors (g : PlannerGraph) : ∑ x ∈ g.nodes, (g.successors x).length = g.wires := by
  have hlist : ∀ (n : ℕ) (f : ℕ → ℕ), ∑ i ∈ Finset.range n, f i = ((List.range n).map f).sum := by
    intro n f
    induction n with
    | zero => rfl
    | succ n ih => rw [Finset.sum_range_succ, ih, List.range_succ, List.map_append, List.sum_append, List.map_singleton,
        List.sum_singleton]
  rw [PlannerGraph.nodes, Finset.sum_union, Finset.sum_union, Finset.sum_union, Finset.sum_image, Finset.sum_image,
    Finset.sum_image, Finset.sum_singleton, hlist, hlist]
  · simp [PlannerGraph.successors, PlannerGraph.wires]
  · simp
  · simp
  · simp
  · simp [Finset.disjoint_left]
  · rw [Finset.disjoint_left]
    rintro node hnode hfanIn
    obtain ⟨i, -, rfl⟩ := Finset.mem_image.1 hfanIn
    simp at hnode
  · rw [Finset.disjoint_left]
    rintro node hnode hterminus
    rw [Finset.mem_singleton.1 hterminus] at hnode
    simp at hnode

theorem Chain.entry_mem_nodes {chain : Chain} {next node : PlannerNode} (h : chain.entry (some next) = some node) :
    node ∈ chain.nodes ∨ node = next := by
  cases chain with
  | nil => exact .inr (Option.some.inj h).symm
  | join | or =>
    obtain rfl := Option.some.inj h
    exact .inl List.mem_cons_self

theorem Branches.ends_subset_nodes {branches : Branches} {node : PlannerNode} (h : node ∈ branches.ends) :
    node ∈ branches.nodes := by
  match branches with
  | .nil => cases h
  | .cons branch branches =>
    obtain h | h := List.mem_append.1 h
    · obtain h | h := List.mem_append.1 h
      · exact List.mem_append_left _ (Chain.entry_mem (Option.mem_toList.1 h))
      · exact List.mem_append_left _ (Chain.exit_mem (Option.mem_toList.1 h)).1
    · exact List.mem_append_right _ (Branches.ends_subset_nodes h)

mutual

theorem Chain.Wired.outputs_mem {outputs : PlannerNode → List PlannerNode} {chain : Chain} {next : PlannerNode}
    (h : chain.Wired outputs (some next)) {node : PlannerNode} (hnode : node ∈ chain.nodes) {y : PlannerNode}
    (hy : y ∈ outputs node) : y ∈ chain.nodes ∨ y = next := by
  match chain with
  | .nil => cases hnode
  | .join i child rest =>
    have hrest : y ∈ rest.nodes ∨ y = next → y ∈ (Chain.join i child rest).nodes ∨ y = next :=
      Or.imp_left fun hy => List.mem_cons_of_mem _ (List.mem_append_right _ hy)
    obtain rfl | hnode := List.mem_cons.1 hnode
    · obtain ⟨entry, hentry⟩ := rest.exists_entry next
      rw [h.1 entry hentry, List.mem_singleton] at hy
      subst hy
      exact hrest (Chain.entry_mem_nodes hentry)
    · obtain hnode | hnode := List.mem_append.1 hnode
      · obtain hy | rfl := Chain.Wired.outputs_mem h.2.1 hnode hy
        · exact .inl (List.mem_cons_of_mem _ (List.mem_append_left _ hy))
        · exact .inl List.mem_cons_self
      · exact hrest (Chain.Wired.outputs_mem h.2.2 hnode hy)
  | .or fanOut fanIn branches rest =>
    have hin : y ∈ branches.nodes → y ∈ (Chain.or fanOut fanIn branches rest).nodes := fun hy =>
      List.mem_cons_of_mem _ (List.mem_cons_of_mem _ (List.mem_append_left _ hy))
    have hrest : y ∈ rest.nodes ∨ y = next → y ∈ (Chain.or fanOut fanIn branches rest).nodes ∨ y = next :=
      Or.imp_left fun hy => List.mem_cons_of_mem _ (List.mem_cons_of_mem _ (List.mem_append_right _ hy))
    obtain rfl | hnode := List.mem_cons.1 hnode
    · rw [h.2.1] at hy
      exact .inl (hin (Branches.ends_subset_nodes hy))
    · obtain rfl | hnode := List.mem_cons.1 hnode
      · obtain ⟨entry, hentry⟩ := rest.exists_entry next
        rw [h.1 entry hentry, List.mem_singleton] at hy
        subst hy
        exact hrest (Chain.entry_mem_nodes hentry)
      · obtain hnode | hnode := List.mem_append.1 hnode
        · obtain hy | rfl := Branches.Wired.outputs_mem h.2.2.1 hnode hy
          · exact .inl (hin hy)
          · exact .inl (List.mem_cons_of_mem _ List.mem_cons_self)
        · exact hrest (Chain.Wired.outputs_mem h.2.2.2 hnode hy)

theorem Branches.Wired.outputs_mem {outputs : PlannerNode → List PlannerNode} {branches : Branches} {next : PlannerNode}
    (h : branches.Wired outputs (some next)) {node : PlannerNode} (hnode : node ∈ branches.nodes) {y : PlannerNode}
    (hy : y ∈ outputs node) : y ∈ branches.nodes ∨ y = next := by
  match branches with
  | .nil => cases hnode
  | .cons branch branches =>
    obtain hnode | hnode := List.mem_append.1 hnode
    · exact (Chain.Wired.outputs_mem h.2.1 hnode hy).imp_left fun hy => List.mem_append_left _ hy
    · exact (Branches.Wired.outputs_mem h.2.2 hnode hy).imp_left fun hy => List.mem_append_right _ hy

end

theorem PlannerGraph.successors_subset (g : PlannerGraph) {x y : PlannerNode} (h : y ∈ g.successors x) :
    y ∈ g.outputs x := by
  cases x with
  | join | fanOut => exact h
  | connection | fanIn | terminus => cases h

theorem mem_nodes_of_successor {condition : Option Condition} {x y : PlannerNode}
    (hx : x ∈ (buildPlanGraph condition).nodes) (hy : y ∈ (buildPlanGraph condition).successors x) :
    y ∈ (buildPlanGraph condition).nodes := by
  obtain ⟨hwired, hnumbered, -⟩ := buildPlanGraph_wired condition
  rw [PlannerGraph.mem_nodes] at hx ⊢
  have hnone : ∀ node : PlannerNode, ¬ node.Below {} := by
    intro node
    cases node <;> simp [PlannerNode.Below]
  obtain hx | rfl := hx
  · have hmem := (hnumbered.mem_iff x).2 ⟨hx, hnone x⟩
    obtain hy | rfl := hwired.outputs_mem hmem ((buildPlanGraph condition).successors_subset hy)
    · exact .inl ((hnumbered.mem_iff y).1 hy).1
    · exact .inr rfl
  · cases hy

/-- **The walk** of an or visits where it gets, once each, in the order of a breadth-first search. -/
theorem findFIAndJoins_visits {condition : Option Condition} {or : Or} (hor : or ∈ (queryChain condition).ors) :
    ∃ visited, BreadthFirst.Visits (buildPlanGraph condition).successors or.branches.ends [] visited ∧
      (∀ node, node ∈ visited ↔ node ∈ or.branches.walk or.fanIn) ∧
      (findFIAndJoins (buildPlanGraph condition) or.fanOut).fi = (visited.filterMap fanInOf).getLast? ∧
      (findFIAndJoins (buildPlanGraph condition) or.fanOut).joinsBetween = visited.filterMap joinOf := by
  obtain ⟨hwired, hnumbered, -⟩ := buildPlanGraph_wired condition
  obtain ⟨houtputs, hbranches⟩ := hwired.of_mem_ors hor
  have hends : ∀ node ∈ or.branches.ends, node ∈ (buildPlanGraph condition).nodes := by
    intro node hnode
    have hmem : node ∈ or.nodes :=
      List.mem_cons_of_mem _ (List.mem_cons_of_mem _ (Branches.ends_subset_nodes hnode))
    exact PlannerGraph.mem_nodes.2 (.inl ((hnumbered.mem_iff node).1 ((Chain.sublist_of_mem_ors hor).subset hmem)).1)
  have hfuel : BreadthFirst.rounds (buildPlanGraph condition).successors (buildPlanGraph condition).nodes
      or.branches.ends [] ≤ (buildPlanGraph condition).wires + or.branches.ends.length := by
    unfold BreadthFirst.rounds
    simp only [List.not_mem_nil, not_false_eq_true, Finset.filter_true, PlannerGraph.sum_successors]
    omega
  have hvisits := BreadthFirst.visits_visit (fun x hx y hy => mem_nodes_of_successor hx hy) hends hfuel
  obtain ⟨queue, hrun⟩ := Walk.run_of (buildPlanGraph condition)
    ((buildPlanGraph condition).wires + or.branches.ends.length) or.branches.ends []
  have hfind : findFIAndJoins (buildPlanGraph condition) or.fanOut = Walk.of queue
      (BreadthFirst.visit (buildPlanGraph condition).successors
        ((buildPlanGraph condition).wires + or.branches.ends.length) or.branches.ends []) := by
    rw [findFIAndJoins, houtputs]
    exact hrun
  refine ⟨_, hvisits, fun node => ⟨fun hnode => ?_, fun hnode => ?_⟩, by rw [hfind]; rfl, by rw [hfind]; rfl⟩
  · obtain hnode | hnode := hvisits.sound (fun x hx y hy => Branches.walk_closed hbranches hx hy)
      (fun x hx => Branches.ends_subset_walk hbranches hx) node hnode
    · cases hnode
    · exact hnode
  · refine Branches.walk_reached hbranches (S := (· ∈ BreadthFirst.visit _ _ _ _)) (fun x hx y hy => ?_)
      (fun x hx => hvisits.complete.1 x hx) hnode
    exact hvisits.complete.2 x hx List.not_mem_nil y hy

end ZeroSync.PlanGraph
