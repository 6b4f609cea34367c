/-
Which ors `checkAndConvertFOFI` makes unions. The walk from the fan-out of an or takes the
last fan-in that it visits for the one that closes the or; when that is so is a matter of
the shape of the branches (`Branches.Closes`, `findFIAndJoins_fi`). The types are those of
the flipped joins between fan-out and fan-in if and only if, in every or with a flipped
join, the walk visits such a join and takes the right fan-in (`unions_iff`).
-/
import ZeroSync.PlanGraphWalk

namespace ZeroSync.PlanGraph

open Planner (JoinType FanInType)

/-! ## Where a walk closes -/

/-- The branches as far as the first that ends with a join. -/
def Branches.untilJoin : Branches → List Chain
  | .nil => []
  | .cons branch branches =>
    match branch.exit with
    | some (.join _) => [branch]
    | _ => branch :: branches.untilJoin

/-- The last nodes of the branches of the or that a chain begins with. -/
def Chain.opens : Chain → List PlannerNode
  | .nil | .join .. => []
  | .or _ _ branches _ => branches.exits

/-- Whether the fan-in after the branches is the last one that the walk visits: a branch
ends with a join, and every other fan-in where the walk gets is the end of a branch, or of a
branch of an or that opens a branch as far as the first one that ends with a join. -/
def Branches.Closes (branches : Branches) (fanIn : ℕ) : Prop :=
  (∃ i, .join i ∈ branches.exits) ∧ ∀ j, .fanIn j ∈ branches.walk fanIn → j ≠ fanIn →
    .fanIn j ∈ branches.exits ∨ ∃ branch ∈ branches.untilJoin, .fanIn j ∈ branch.opens

/-! ## Nodes of a walk -/

mutual

theorem Chain.walk_subset {fanIn : ℕ} {chain : Chain} {node : PlannerNode} (h : node ∈ chain.walk fanIn) :
    node ∈ chain.nodes ∨ node = .fanIn fanIn := by
  match chain with
  | .nil => exact .inr (List.mem_singleton.1 h)
  | .join i child rest =>
    obtain rfl | h := List.mem_cons.1 h
    · exact .inl List.mem_cons_self
    · exact (Chain.walk_subset h).imp_left fun h => List.mem_cons_of_mem _ (List.mem_append_right _ h)
  | .or fanOut fanIn' branches rest =>
    obtain rfl | h := List.mem_cons.1 h
    · exact .inl List.mem_cons_self
    · obtain h | rfl := Branches.walk_subset h
      · exact .inl (List.mem_cons_of_mem _ (List.mem_cons_of_mem _ (List.mem_append_left _ h)))
      · exact .inl (List.mem_cons_of_mem _ List.mem_cons_self)

theorem Branches.walk_subset {fanIn : ℕ} {branches : Branches} {node : PlannerNode} (h : node ∈ branches.walk fanIn) :
    node ∈ branches.nodes ∨ node = .fanIn fanIn := by
  match branches with
  | .nil => cases h
  | .cons branch branches =>
    obtain h | h := List.mem_append.1 h
    · obtain h | h := List.mem_append.1 h
      · exact (Chain.walk_subset h).imp_left fun h => List.mem_append_left _ h
      · obtain hexit | ⟨rfl, -⟩ := mem_exitWalk.1 h
        · exact .inl (List.mem_append_left _ (Chain.exit_mem hexit).1)
        · exact .inr rfl
    · exact (Branches.walk_subset h).imp_left fun h => List.mem_append_right _ h

end

theorem Chain.mem_joins_of_exit {chain : Chain} {i : ℕ} (h : chain.exit = some (.join i)) : i ∈ chain.joins := by
  match chain with
  | .nil => cases h
  | .join j child rest =>
    obtain hlast | ⟨-, heq⟩ := exit_getD.1 h
    · exact List.mem_cons_of_mem _ (mem_joins_of_exit hlast)
    · cases heq
      exact List.mem_cons_self
  | .or fanOut fanIn branches rest =>
    obtain hlast | ⟨-, heq⟩ := exit_getD.1 h
    · exact List.mem_append_right _ (mem_joins_of_exit hlast)
    · cases heq

mutual

theorem Chain.mem_joins_of_walk {fanIn : ℕ} {chain : Chain} {i : ℕ} (h : .join i ∈ chain.walk fanIn) :
    i ∈ chain.joins := by
  match chain with
  | .nil => cases List.mem_singleton.1 h
  | .join j child rest =>
    obtain heq | h := List.mem_cons.1 h
    · cases heq
      exact List.mem_cons_self
    · exact List.mem_cons_of_mem _ (Chain.mem_joins_of_walk h)
  | .or fanOut fanIn' branches rest =>
    obtain heq | h := List.mem_cons.1 h
    · cases heq
    · exact List.mem_append_left _ (Branches.mem_joins_of_walk h)

theorem Branches.mem_joins_of_walk {fanIn : ℕ} {branches : Branches} {i : ℕ} (h : .join i ∈ branches.walk fanIn) :
    i ∈ branches.joins := by
  match branches with
  | .nil => cases h
  | .cons branch branches =>
    obtain h | h := List.mem_append.1 h
    · obtain h | h := List.mem_append.1 h
      · exact List.mem_append_left _ (Chain.mem_joins_of_walk h)
      · obtain hexit | ⟨heq, -⟩ := mem_exitWalk.1 h
        · exact List.mem_append_left _ (Chain.mem_joins_of_exit hexit)
        · cases heq
    · exact List.mem_append_right _ (Branches.mem_joins_of_walk h)

end

theorem Chain.exit_of_mem_walk {fanIn : ℕ} {chain : Chain} (hne : chain ≠ .nil) (hfanIn : .fanIn fanIn ∉ chain.nodes)
    (h : .fanIn fanIn ∈ chain.walk fanIn) : ∃ i, chain.exit = some (.join i) := by
  match chain with
  | .nil => exact absurd rfl hne
  | .join i child rest =>
    obtain heq | h := List.mem_cons.1 h
    · cases heq
    · by_cases hrest : rest = .nil
      · exact ⟨i, exit_getD.2 (.inr ⟨hrest, rfl⟩)⟩
      · obtain ⟨j, hj⟩ := Chain.exit_of_mem_walk hrest
          (fun hmem => hfanIn (List.mem_cons_of_mem _ (List.mem_append_right _ hmem))) h
        exact ⟨j, exit_getD.2 (.inl hj)⟩
  | .or fanOut fanIn' branches rest =>
    obtain heq | h := List.mem_cons.1 h
    · cases heq
    · obtain h | heq := Branches.walk_subset h
      · exact absurd (List.mem_cons_of_mem _ (List.mem_cons_of_mem _ (List.mem_append_left _ h))) hfanIn
      · exact absurd (List.mem_cons_of_mem _ (heq ▸ List.mem_cons_self)) hfanIn

theorem Branches.exit_of_mem_walk {outputs : PlannerNode → List PlannerNode} {next : Option PlannerNode} {fanIn : ℕ}
    {branches : Branches} (hwired : branches.Wired outputs next) (hfanIn : .fanIn fanIn ∉ branches.nodes)
    (h : .fanIn fanIn ∈ branches.walk fanIn) : ∃ i, .join i ∈ branches.exits := by
  match branches with
  | .nil => cases h
  | .cons branch branches =>
    have hbranch : PlannerNode.fanIn fanIn ∉ branch.nodes := fun hmem => hfanIn (List.mem_append_left _ hmem)
    obtain h | h := List.mem_append.1 h
    · have hexit : ∃ i, branch.exit = some (.join i) := by
        obtain h | h := List.mem_append.1 h
        · exact Chain.exit_of_mem_walk hwired.1 hbranch h
        · obtain hexit | ⟨-, hexit⟩ := mem_exitWalk.1 h
          · exact absurd (Chain.exit_mem hexit).1 hbranch
          · exact hexit
      obtain ⟨i, hi⟩ := hexit
      exact ⟨i, List.mem_append_left _ (Option.mem_toList.2 hi)⟩
    · obtain ⟨i, hi⟩ := Branches.exit_of_mem_walk hwired.2.2 (fun hmem => hfanIn (List.mem_append_right _ hmem)) h
      exact ⟨i, List.mem_append_right _ hi⟩

/-! ## The ends of branches -/

theorem Chain.entry_kind {chain : Chain} {node : PlannerNode} (h : chain.entry none = some node) :
    (∃ i, node = .join i) ∨ ∃ i, node = .fanOut i := by
  cases chain with
  | nil => cases h
  | join i => exact .inl ⟨i, (Option.some.inj h).symm⟩
  | or i => exact .inr ⟨i, (Option.some.inj h).symm⟩

theorem Chain.entry_eq_none {chain : Chain} : chain.entry none = none ↔ chain = .nil := by
  cases chain <;> simp [entry]

theorem Chain.opens_of_join {chain : Chain} {i : ℕ} (h : chain.entry none = some (.join i)) : chain.opens = [] := by
  cases chain with
  | nil | join => rfl
  | or => cases h

theorem Branches.fanIn_mem_ends {branches : Branches} {j : ℕ} :
    .fanIn j ∈ branches.ends ↔ .fanIn j ∈ branches.exits := by
  match branches with
  | .nil => exact Iff.rfl
  | .cons branch branches =>
    have hentry : PlannerNode.fanIn j ∉ (branch.entry none).toList := by
      intro h
      obtain ⟨i, hi⟩ | ⟨i, hi⟩ := Chain.entry_kind (Option.mem_toList.1 h)
      · cases hi
      · cases hi
    rw [ends, exits, List.mem_append, List.mem_append, List.mem_append, Branches.fanIn_mem_ends]
    simp only [hentry, false_or]

theorem Chain.opens_subset {chain : Chain} {node : PlannerNode} (h : node ∈ chain.opens) : node ∈ chain.nodes := by
  cases chain with
  | nil | join => cases h
  | or => exact List.mem_cons_of_mem _ (List.mem_cons_of_mem _ (List.mem_append_left _ (Branches.exits_subset h)))

theorem Branches.untilJoin_subset {branches : Branches} {branch : Chain} (h : branch ∈ branches.untilJoin)
    {node : PlannerNode} (hnode : node ∈ branch.nodes) : node ∈ branches.nodes := by
  match branches with
  | .nil => cases h
  | .cons first branches =>
    rw [untilJoin] at h
    split at h
    · rw [List.mem_singleton.1 h] at hnode
      exact List.mem_append_left _ hnode
    · obtain rfl | h := List.mem_cons.1 h
      · exact List.mem_append_left _ hnode
      · exact List.mem_append_right _ (untilJoin_subset h hnode)

/-! ## The fan-in that the walk takes -/

theorem Chain.fanIn_mem_successors {g : PlannerGraph} {chain : Chain} {next node : PlannerNode}
    (h : chain.Wired g.outputs (some next)) (hentry : chain.entry none = some node) (hexit : chain.exit ≠ some node)
    {j : ℕ} : .fanIn j ∈ g.successors node ↔ .fanIn j ∈ chain.opens := by
  cases chain with
  | nil => cases hentry
  | join i child rest =>
    obtain rfl := Option.some.inj hentry
    have hrest : rest ≠ .nil := fun hnil => hexit (exit_getD.2 (.inr ⟨hnil, rfl⟩))
    cases rest with
    | nil => exact absurd rfl hrest
    | join | or => simp [PlannerGraph.successors, h.1 _ rfl, Chain.opens]
  | or fanOut fanIn branches rest =>
    obtain rfl := Option.some.inj hentry
    rw [PlannerGraph.successors, h.2.1]
    exact Branches.fanIn_mem_ends

theorem Branches.Wired.exists_join {g : PlannerGraph} {fanIn : ℕ} {branches : Branches}
    (h : branches.Wired g.outputs (some (.fanIn fanIn))) (hnodup : branches.nodes.Nodup)
    (hexit : ∃ i, .join i ∈ branches.exits) :
    ∃ before i after, branches.ends = before ++ .join i :: after ∧ .join i ∉ before ∧
      g.successors (.join i) = [.fanIn fanIn] ∧
      ∀ j, .fanIn j ∈ before.flatMap g.successors ↔ ∃ branch ∈ branches.untilJoin, .fanIn j ∈ branch.opens := by
  match branches with
  | .nil =>
    obtain ⟨i, hi⟩ := hexit
    cases hi
  | .cons branch branches =>
    obtain ⟨hne, hbranch, hbranches⟩ := h
    obtain ⟨-, hnodup, hdisjoint⟩ := List.nodup_append.1 hnodup
    obtain ⟨entry, hentry⟩ := Option.ne_none_iff_exists'.1 fun hnone => hne (Chain.entry_eq_none.1 hnone)
    obtain ⟨exit, hlast⟩ := Option.ne_none_iff_exists'.1 fun hnone => hne (Chain.exit_eq_none.1 hnone)
    obtain ⟨-, ⟨i, rfl⟩ | ⟨k, rfl⟩⟩ := Chain.exit_mem hlast
    · have huntil : (Branches.cons branch branches).untilJoin = [branch] := by rw [untilJoin, hlast]
      have hsuccessors : g.successors (.join i) = [.fanIn fanIn] := hbranch.exit_outputs hlast
      by_cases heq : entry = .join i
      · -- the branch is one join
        refine ⟨[], i, .join i :: branches.ends, ?_, List.not_mem_nil, hsuccessors, fun j => ?_⟩
        · simp [ends, hentry, hlast, heq]
        · subst heq
          simp [huntil, Chain.opens_of_join hentry]
      · refine ⟨[entry], i, branches.ends, ?_, fun hmem => heq (List.mem_singleton.1 hmem).symm, hsuccessors,
          fun j => ?_⟩
        · simp [ends, hentry, hlast]
        · have hexit : branch.exit ≠ some entry := by
            rw [hlast]
            exact fun h => heq (Option.some.inj h).symm
          have hmem := Chain.fanIn_mem_successors hbranch hentry hexit (j := j)
          simp [huntil, hmem]
    · have huntil : (Branches.cons branch branches).untilJoin = branch :: branches.untilJoin := by rw [untilJoin, hlast]
      obtain ⟨before, i, after, hends, hnot, hsuccessors, hopens⟩ := Branches.Wired.exists_join hbranches hnodup <| by
        obtain ⟨i, hi⟩ := hexit
        obtain hi | hi := List.mem_append.1 hi
        · rw [hlast] at hi
          cases Option.some.inj (Option.mem_toList.1 hi)
        · exact ⟨i, hi⟩
      have hjoin : PlannerNode.join i ∈ branches.nodes :=
        ends_subset_nodes (by rw [hends]; exact List.mem_append_right _ List.mem_cons_self)
      refine ⟨entry :: .fanIn k :: before, i, after, ?_, ?_, hsuccessors, fun j => ?_⟩
      · simp [ends, hentry, hlast, hends]
      · intro hmem
        obtain heq | hmem := List.mem_cons.1 hmem
        · exact hdisjoint entry (Chain.entry_mem hentry) _ hjoin heq.symm
        · obtain heq | hmem := List.mem_cons.1 hmem
          · cases heq
          · exact hnot hmem
      · have hne : branch.exit ≠ some entry := by
          rw [hlast]
          rintro heq
          obtain rfl := Option.some.inj heq
          obtain ⟨i, hi⟩ | ⟨i, hi⟩ := Chain.entry_kind hentry
          · cases hi
          · cases hi
        have hmem := Chain.fanIn_mem_successors hbranch hentry hne (j := j)
        have hnone : g.successors (.fanIn k) = [] := rfl
        simp [huntil, hmem, hnone, ← hopens j]

theorem filter_fanIn (nodes : List PlannerNode) :
    nodes.filter (fun node => (fanInOf node).isSome) = (nodes.filterMap fanInOf).map .fanIn := by
  induction nodes with
  | nil => rfl
  | cons node nodes ih =>
    rw [List.filter_cons, List.filterMap_cons, ih]
    cases node <;> rfl

theorem getLast?_fanIn {nodes : List PlannerNode} {i : ℕ} :
    (nodes.filter fun node => (fanInOf node).isSome).getLast? = some (.fanIn i) ↔
      (nodes.filterMap fanInOf).getLast? = some i := by
  rw [filter_fanIn, List.getLast?_map]
  cases (nodes.filterMap fanInOf).getLast? <;> simp

theorem mem_filterMap_fanInOf {nodes : List PlannerNode} {i : ℕ} :
    i ∈ nodes.filterMap fanInOf ↔ .fanIn i ∈ nodes := by
  rw [List.mem_filterMap]
  constructor
  · rintro ⟨node, hnode, h⟩
    cases node <;> cases h
    exact hnode
  · exact fun h => ⟨_, h, rfl⟩

theorem mem_filterMap_joinOf {nodes : List PlannerNode} {i : ℕ} :
    i ∈ nodes.filterMap joinOf ↔ .join i ∈ nodes := by
  rw [List.mem_filterMap]
  constructor
  · rintro ⟨node, hnode, h⟩
    cases node <;> cases h
    exact hnode
  · exact fun h => ⟨_, h, rfl⟩

variable {condition : Option Condition} {or : Or}

theorem nodup_of_mem_ors (hor : or ∈ (queryChain condition).ors) : or.nodes.Nodup :=
  (buildPlanGraph_wired condition).2.1.nodup.sublist (Chain.sublist_of_mem_ors hor)

theorem mem_joinsBetween (hor : or ∈ (queryChain condition).ors) {i : ℕ} :
    i ∈ (findFIAndJoins (buildPlanGraph condition) or.fanOut).joinsBetween ↔ .join i ∈ or.branches.walk or.fanIn := by
  obtain ⟨visited, -, hmem, -, hjoins⟩ := findFIAndJoins_visits hor
  rw [hjoins, mem_filterMap_joinOf, hmem]

theorem mem_walk_of_fi (hor : or ∈ (queryChain condition).ors) {i : ℕ}
    (h : (findFIAndJoins (buildPlanGraph condition) or.fanOut).fi = some i) : .fanIn i ∈ or.branches.walk or.fanIn := by
  obtain ⟨visited, -, hmem, hfi, -⟩ := findFIAndJoins_visits hor
  rw [← hmem, ← mem_filterMap_fanInOf]
  exact List.mem_of_getLast? (hfi.symm.trans h)

/-- **The fan-in** that the walk takes is that of the or if and only if the branches close so. -/
theorem findFIAndJoins_fi (hor : or ∈ (queryChain condition).ors) :
    (findFIAndJoins (buildPlanGraph condition) or.fanOut).fi = some or.fanIn ↔ or.branches.Closes or.fanIn := by
  obtain ⟨-, hnodup⟩ := List.nodup_cons.1 (nodup_of_mem_ors hor)
  obtain ⟨hfanIn, hnodup⟩ := List.nodup_cons.1 hnodup
  obtain ⟨-, hwired⟩ := (buildPlanGraph_wired condition).1.of_mem_ors hor
  by_cases hexit : ∃ i, PlannerNode.join i ∈ or.branches.exits
  · obtain ⟨visited, hvisits, hmem, hfi, -⟩ := findFIAndJoins_visits hor
    obtain ⟨before, i, after, hends, hnot, hsuccessors, hopens⟩ := hwired.exists_join hnodup hexit
    have hqueue : PlannerNode.fanIn or.fanIn ∉ or.branches.ends := fun h =>
      hfanIn (Branches.ends_subset_nodes h)
    have hbefore : PlannerNode.fanIn or.fanIn ∉ before.flatMap (buildPlanGraph condition).successors := by
      intro h
      obtain ⟨branch, hbranch, h⟩ := (hopens or.fanIn).1 h
      exact hfanIn (Branches.untilJoin_subset hbranch (Chain.opens_subset h))
    rw [hends] at hvisits hqueue
    rw [hfi, ← getLast?_fanIn, hvisits.last_iff hnot hsuccessors hqueue hbefore rfl, ← hends]
    constructor
    · intro h
      refine ⟨hexit, fun j hj hne => ?_⟩
      obtain hj | hj := h _ ((hmem _).2 hj) rfl fun heq => hne (by cases heq; rfl)
      · exact .inl (Branches.fanIn_mem_ends.1 hj)
      · exact .inr ((hopens j).1 hj)
    · rintro ⟨-, h⟩ node hnode hkind hne
      cases node with
      | fanIn j =>
        obtain hj | hj := h j ((hmem _).1 hnode) fun heq => hne (by rw [heq])
        · exact .inl (Branches.fanIn_mem_ends.2 hj)
        · exact .inr ((hopens j).2 hj)
      | connection | join | fanOut | terminus => cases hkind
  · exact ⟨fun h => absurd (Branches.exit_of_mem_walk hwired hfanIn (mem_walk_of_fi hor h)) hexit,
      fun h => absurd h.1 hexit⟩

/-! ## Ors by their fan-ins -/

mutual

theorem Chain.fanIns_sublist (chain : Chain) :
    (chain.ors.map fun or => PlannerNode.fanIn or.fanIn).Sublist chain.nodes := by
  match chain with
  | .nil => exact .slnil
  | .join i child rest =>
    rw [Chain.ors, List.map_append]
    exact (child.fanIns_sublist.append rest.fanIns_sublist).cons _
  | .or fanOut fanIn branches rest =>
    rw [Chain.ors, List.map_cons, List.map_append]
    exact ((branches.fanIns_sublist.append rest.fanIns_sublist).cons_cons _).cons _

theorem Branches.fanIns_sublist (branches : Branches) :
    (branches.ors.map fun or => PlannerNode.fanIn or.fanIn).Sublist branches.nodes := by
  match branches with
  | .nil => exact .slnil
  | .cons branch branches =>
    rw [Branches.ors, List.map_append]
    exact branch.fanIns_sublist.append branches.fanIns_sublist

end

theorem eq_of_fanIn_eq (hor : or ∈ (queryChain condition).ors) {or' : Or} (hor' : or' ∈ (queryChain condition).ors)
    (h : or.fanIn = or'.fanIn) : or = or' :=
  List.inj_on_of_nodup_map ((buildPlanGraph_wired condition).2.1.nodup.sublist (Chain.fanIns_sublist _)) hor hor'
    (congrArg PlannerNode.fanIn h)

mutual

theorem Chain.mem_ors_trans {chain : Chain} {or or' : Or} (hor : or ∈ chain.ors) (hor' : or' ∈ or.branches.ors) :
    or' ∈ chain.ors := by
  match chain with
  | .nil => cases hor
  | .join i child rest =>
    obtain hor | hor := List.mem_append.1 hor
    · exact List.mem_append_left _ (Chain.mem_ors_trans hor hor')
    · exact List.mem_append_right _ (Chain.mem_ors_trans hor hor')
  | .or fanOut fanIn branches rest =>
    obtain rfl | hor := List.mem_cons.1 hor
    · exact List.mem_cons_of_mem _ (List.mem_append_left _ hor')
    · obtain hor | hor := List.mem_append.1 hor
      · exact List.mem_cons_of_mem _ (List.mem_append_left _ (Branches.mem_ors_trans hor hor'))
      · exact List.mem_cons_of_mem _ (List.mem_append_right _ (Chain.mem_ors_trans hor hor'))

theorem Branches.mem_ors_trans {branches : Branches} {or or' : Or} (hor : or ∈ branches.ors)
    (hor' : or' ∈ or.branches.ors) : or' ∈ branches.ors := by
  match branches with
  | .nil => cases hor
  | .cons branch branches =>
    obtain hor | hor := List.mem_append.1 hor
    · exact List.mem_append_left _ (Chain.mem_ors_trans hor hor')
    · exact List.mem_append_right _ (Branches.mem_ors_trans hor hor')

end

theorem length_lt_of_mem_walk (hor : or ∈ (queryChain condition).ors) {or' : Or}
    (hor' : or' ∈ (queryChain condition).ors) (hne : or'.fanIn ≠ or.fanIn)
    (h : .fanIn or'.fanIn ∈ or.branches.walk or.fanIn) : or'.nodes.length < or.nodes.length := by
  obtain h | heq := Branches.walk_subset h
  · obtain ⟨i, hi⟩ | ⟨inner, hinner, hi | hi⟩ := Branches.exists_or h
    · cases hi
    · cases hi
    · have heq : or' = inner := eq_of_fanIn_eq hor' (Chain.mem_ors_trans hor hinner) (PlannerNode.fanIn.inj hi)
      rw [← heq] at hinner
      have hle := (Branches.sublist_of_mem_ors hinner).length_le
      have hlength : or.nodes.length = or.branches.nodes.length + 2 := rfl
      omega
  · exact absurd (PlannerNode.fanIn.inj heq) hne

/-! ## Unions -/

/-- Whether a fan-out is made a union by its walk. -/
def Walk.Converts (type : ℕ → JoinType) (walk : Walk) : Prop :=
  walk.fi.isSome ∧ ∃ i ∈ walk.joinsBetween, type i = .flipped

theorem checkAndConvertFOFI_step (type : ℕ → JoinType) (fo : ℕ) (walk : Walk) (types : FanTypes) :
    (∀ i, (checkAndConvertFOFI type [(fo, walk)] types).fanOut i = .UFO ↔
      types.fanOut i = .UFO ∨ fo = i ∧ walk.Converts type) ∧
    ∀ i, (checkAndConvertFOFI type [(fo, walk)] types).fanIn i = .UFI ↔
      types.fanIn i = .UFI ∨ walk.fi = some i ∧ walk.Converts type := by
  have hany : walk.joinsBetween.any (type · = .flipped) = true ↔ ∃ i ∈ walk.joinsBetween, type i = .flipped := by
    simp only [List.any_eq_true, decide_eq_true_eq]
  unfold checkAndConvertFOFI Walk.Converts
  rw [List.foldl_cons, List.foldl_nil]
  cases hfi : walk.fi with
  | none => simp
  | some fi =>
    by_cases hflipped : ∃ i ∈ walk.joinsBetween, type i = .flipped
    · simp only [hany.2 hflipped, hflipped, if_true, Function.update_apply, Option.isSome_some, Option.some.injEq,
        and_true]
      refine ⟨fun i => ?_, fun i => ?_⟩
      · rw [eq_comm (a := fo), ite_eq_iff]
        tauto
      · rw [eq_comm (a := fi), ite_eq_iff]
        tauto
    · have hnone : walk.joinsBetween.any (type · = .flipped) = false := Bool.eq_false_iff.2 (mt hany.1 hflipped)
      simp [hnone, hflipped]

theorem checkAndConvertFOFI_iff (type : ℕ → JoinType) (cache : List (ℕ × Walk)) (types : FanTypes) :
    (∀ i, (checkAndConvertFOFI type cache types).fanOut i = .UFO ↔
      types.fanOut i = .UFO ∨ ∃ info ∈ cache, info.1 = i ∧ info.2.Converts type) ∧
    ∀ i, (checkAndConvertFOFI type cache types).fanIn i = .UFI ↔
      types.fanIn i = .UFI ∨ ∃ info ∈ cache, info.2.fi = some i ∧ info.2.Converts type := by
  induction cache generalizing types with
  | nil => exact ⟨fun i => by simp [checkAndConvertFOFI], fun i => by simp [checkAndConvertFOFI]⟩
  | cons info cache ih =>
    have hcons : checkAndConvertFOFI type (info :: cache) types =
        checkAndConvertFOFI type cache (checkAndConvertFOFI type [info] types) := rfl
    obtain ⟨hfanOut, hfanIn⟩ := ih (checkAndConvertFOFI type [info] types)
    obtain ⟨hout, hin⟩ := checkAndConvertFOFI_step type info.1 info.2 types
    rw [hcons]
    constructor
    · intro i
      rw [hfanOut, hout, or_assoc]
      simp only [List.mem_cons, exists_eq_or_imp]
    · intro i
      rw [hfanIn, hin, or_assoc]
      simp only [List.mem_cons, exists_eq_or_imp]

theorem fanTypes_iff (condition : Option Condition) (type : ℕ → JoinType) :
    (∀ or ∈ (queryChain condition).ors,
      (checkAndConvertFOFI type (buildFOFICache (buildPlanGraph condition)) {}).fanOut or.fanOut = .UFO ↔
        (findFIAndJoins (buildPlanGraph condition) or.fanOut).Converts type) ∧
    ∀ i, (checkAndConvertFOFI type (buildFOFICache (buildPlanGraph condition)) {}).fanIn i = .UFI ↔
      ∃ or ∈ (queryChain condition).ors, (findFIAndJoins (buildPlanGraph condition) or.fanOut).fi = some i ∧
        (findFIAndJoins (buildPlanGraph condition) or.fanOut).Converts type := by
  obtain ⟨-, hnumbered, -⟩ := buildPlanGraph_wired condition
  obtain ⟨hfanOut, hfanIn⟩ := checkAndConvertFOFI_iff type (buildFOFICache (buildPlanGraph condition)) {}
  have hcache : ∀ fo : ℕ, fo < (buildPlanGraph condition).numbers.fanOuts ↔
      ∃ or ∈ (queryChain condition).ors, fo = or.fanOut := by
    intro fo
    have hmem := hnumbered.mem_iff (.fanOut fo)
    constructor
    · intro hfo
      obtain ⟨i, hi⟩ | ⟨or, hor, hi | hi⟩ := Chain.exists_or (hmem.2 ⟨hfo, Nat.not_lt_zero _⟩)
      · cases hi
      · exact ⟨or, hor, PlannerNode.fanOut.inj hi⟩
      · cases hi
    · rintro ⟨or, hor, rfl⟩
      exact (hmem.1 ((Chain.sublist_of_mem_ors hor).subset List.mem_cons_self)).1
  constructor
  · intro or hor
    rw [hfanOut]
    constructor
    · rintro (h | ⟨info, hinfo, hfo, h⟩)
      · cases h
      · obtain ⟨fo, -, rfl⟩ := List.mem_map.1 hinfo
        obtain rfl : fo = or.fanOut := hfo
        exact h
    · exact fun h => .inr ⟨_, List.mem_map.2 ⟨or.fanOut, List.mem_range.2 ((hcache _).2 ⟨or, hor, rfl⟩), rfl⟩, rfl, h⟩
  · intro i
    rw [hfanIn]
    constructor
    · rintro (h | ⟨info, hinfo, hfi, h⟩)
      · cases h
      · obtain ⟨fo, hfo, rfl⟩ := List.mem_map.1 hinfo
        obtain ⟨or, hor, rfl⟩ := (hcache fo).1 (List.mem_range.1 hfo)
        exact ⟨or, hor, hfi, h⟩
    · rintro ⟨or, hor, hfi, h⟩
      exact .inr ⟨_, List.mem_map.2 ⟨or.fanOut, List.mem_range.2 ((hcache _).2 ⟨or, hor, rfl⟩), rfl⟩, hfi, h⟩

/-- The fan-out and the fan-in of an or are unions if and only if a join between them is flipped. -/
def Or.Agrees (type : ℕ → JoinType) (types : FanTypes) (or : Or) : Prop :=
  (types.fanIn or.fanIn = .UFI ↔ ∃ i ∈ or.branches.joins, type i = .flipped) ∧
    (types.fanOut or.fanOut = .UFO ↔ ∃ i ∈ or.branches.joins, type i = .flipped)

/-- A flipped join is where the walk gets, and the walk takes the fan-in of the or. -/
def Or.Unites (type : ℕ → JoinType) (or : Or) : Prop :=
  (∃ i, .join i ∈ or.branches.walk or.fanIn ∧ type i = .flipped) ∧ or.branches.Closes or.fanIn

theorem converts_iff {type : ℕ → JoinType} (hor : or ∈ (queryChain condition).ors) :
    (findFIAndJoins (buildPlanGraph condition) or.fanOut).Converts type ↔
      (findFIAndJoins (buildPlanGraph condition) or.fanOut).fi.isSome ∧
        ∃ i, .join i ∈ or.branches.walk or.fanIn ∧ type i = .flipped := by
  simp only [Walk.Converts, mem_joinsBetween hor]

/-- **The unions** are the ors with a flipped join between fan-out and fan-in if and only if every or with one
unites: the walk from its fan-out gets to a flipped join, and the branches close with its own fan-in. -/
theorem checkAndConvertFOFI_agrees (condition : Option Condition) (type : ℕ → JoinType) :
    (∀ or ∈ (queryChain condition).ors,
      or.Agrees type (checkAndConvertFOFI type (buildFOFICache (buildPlanGraph condition)) {})) ↔
    ∀ or ∈ (queryChain condition).ors, (∃ i ∈ or.branches.joins, type i = .flipped) → or.Unites type := by
  obtain ⟨hfanOut, hfanIn⟩ := fanTypes_iff condition type
  constructor
  · intro hagree
    -- from the outermost or on: the fan-in of an or that does not close is taken by no other walk
    have hdown : ∀ n, ∀ or ∈ (queryChain condition).ors, (queryChain condition).nodes.length - or.nodes.length < n →
        (∃ i ∈ or.branches.joins, type i = .flipped) → or.Unites type := by
      intro n
      induction n with
      | zero => exact fun or _ hlt => absurd hlt (Nat.not_lt_zero _)
      | succ n ih =>
        intro or hor hlt hflipped
        obtain ⟨hin, hout⟩ := hagree or hor
        obtain ⟨-, hmet⟩ := (converts_iff hor).1 ((hfanOut or hor).1 (hout.2 hflipped))
        refine ⟨hmet, ?_⟩
        obtain ⟨outer, houter, hfi, hconverts⟩ := (hfanIn or.fanIn).1 (hin.2 hflipped)
        by_cases heq : or.fanIn = outer.fanIn
        · obtain rfl := eq_of_fanIn_eq hor houter heq
          exact (findFIAndJoins_fi hor).1 hfi
        · have hlength := length_lt_of_mem_walk houter hor heq (mem_walk_of_fi houter hfi)
          have hle := (Chain.sublist_of_mem_ors houter).length_le
          obtain ⟨-, i, hi, hflip⟩ := (converts_iff houter).1 hconverts
          have hunites := ih outer houter (by omega) ⟨i, Branches.mem_joins_of_walk hi, hflip⟩
          rw [(findFIAndJoins_fi houter).2 hunites.2] at hfi
          exact absurd (Option.some.inj hfi).symm heq
    exact fun or hor => hdown _ or hor (Nat.lt_succ_self _)
  · intro hunites or hor
    have hconverts : (∃ i ∈ or.branches.joins, type i = .flipped) →
        (findFIAndJoins (buildPlanGraph condition) or.fanOut).Converts type := by
      intro hflipped
      obtain ⟨hmet, hcloses⟩ := hunites or hor hflipped
      exact (converts_iff hor).2 ⟨by rw [(findFIAndJoins_fi hor).2 hcloses]; rfl, hmet⟩
    refine ⟨(hfanIn or.fanIn).trans ⟨?_, fun hflipped => ?_⟩, (hfanOut or hor).trans ⟨fun h => ?_, hconverts⟩⟩
    · rintro ⟨outer, houter, hfi, h⟩
      obtain ⟨-, i, hi, hflip⟩ := (converts_iff houter).1 h
      have hmem := Branches.mem_joins_of_walk hi
      rw [(findFIAndJoins_fi houter).2 (hunites outer houter ⟨i, hmem, hflip⟩).2] at hfi
      obtain rfl := eq_of_fanIn_eq houter hor (Option.some.inj hfi)
      exact ⟨i, hmem, hflip⟩
    · exact ⟨or, hor, (findFIAndJoins_fi hor).2 (hunites or hor hflipped).2, hconverts hflipped⟩
    · obtain ⟨-, i, hi, hflip⟩ := (converts_iff hor).1 h
      exact ⟨i, Branches.mem_joins_of_walk hi, hflip⟩

/-- `or(or(a, b), or(c, d))` of four EXISTS that the planner may flip. -/
def orOfOrs : Condition :=
  let exists' := Condition.correlatedSubquery .EXISTS none none
  .or [.or [exists', exists'], .or [exists', exists']]

/-- With only `d` flipped, the outer fan-out becomes a union and its fan-in does not. -/
theorem checkAndConvertFOFI_orOfOrs :
    (buildPlanGraph (some orOfOrs)).flippable 3 = true ∧
      ¬ ∀ or ∈ (queryChain (some orOfOrs)).ors,
        or.Agrees (fun i => if i = 3 then .flipped else .semi)
          (checkAndConvertFOFI (fun i => if i = 3 then .flipped else .semi)
            (buildFOFICache (buildPlanGraph (some orOfOrs))) {}) := by
  refine ⟨by decide +kernel, fun hagree => ?_⟩
  obtain ⟨outer, houter, hfanIn, hjoins⟩ :
      ∃ or ∈ (queryChain (some orOfOrs)).ors, or.fanIn = 2 ∧ 3 ∈ or.branches.joins := by
    decide +kernel
  have hunion := (hagree outer houter).1.2 ⟨3, hjoins, rfl⟩
  rw [hfanIn] at hunion
  exact absurd hunion (by decide +kernel)

end ZeroSync.PlanGraph
