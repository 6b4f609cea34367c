/-
The chain of nodes that a condition becomes in a planner graph, with the numbers that its
nodes get (`Condition.chain`, `numbered_chain`), and when a graph is wired along a chain
(`Chain.Wired`).
-/
import ZeroSync.PlanGraph

namespace ZeroSync.PlanGraph

/-! ## Chains -/

mutual

/-- The nodes of a condition, from its input to what follows it: joins, with the chain of
their subquery, and fan-outs with their fan-ins and what is between them. -/
inductive Chain
  | nil
  | join (i : ℕ) (child rest : Chain)
  | or (fanOut fanIn : ℕ) (branches : Branches) (rest : Chain)

inductive Branches
  | nil
  | cons (branch : Chain) (branches : Branches)

end

def Chain.append : Chain → Chain → Chain
  | .nil, chain => chain
  | .join i child rest, chain => .join i child (rest.append chain)
  | .or fanOut fanIn branches rest, chain => .or fanOut fanIn branches (rest.append chain)

/-- The first node, or what follows where there is none. -/
def Chain.entry : Chain → Option PlannerNode → Option PlannerNode
  | .nil, next => next
  | .join i _ _, _ => some (.join i)
  | .or fanOut _ _ _, _ => some (.fanOut fanOut)

/-- The last node. -/
def Chain.exit : Chain → Option PlannerNode
  | .nil => none
  | .join i _ rest => some (rest.exit.getD (.join i))
  | .or _ fanIn _ rest => some (rest.exit.getD (.fanIn fanIn))

/-- The outputs of a fan-out: the first and the last node of each branch. -/
def Branches.ends : Branches → List PlannerNode
  | .nil => []
  | .cons branch branches => (branch.entry none).toList ++ branch.exit.toList ++ branches.ends

/-- The last nodes of the branches. -/
def Branches.exits : Branches → List PlannerNode
  | .nil => []
  | .cons branch branches => branch.exit.toList ++ branches.exits

mutual

/-- All nodes, those of subqueries too. -/
def Chain.nodes : Chain → List PlannerNode
  | .nil => []
  | .join i child rest => .join i :: (child.nodes ++ rest.nodes)
  | .or fanOut fanIn branches rest => .fanOut fanOut :: .fanIn fanIn :: (branches.nodes ++ rest.nodes)

def Branches.nodes : Branches → List PlannerNode
  | .nil => []
  | .cons branch branches => branch.nodes ++ branches.nodes

end

mutual

def Condition.chain : Condition → Numbers → Chain × Numbers
  | .simple, n => (.nil, n)
  | .and conditions, n => chainAnd conditions n
  | .or conditions, n =>
    if someCorrelatedSubquery conditions then
      let (branches, n') := chainBranches conditions { n with fanOuts := n.fanOuts + 1 }
      (.or n.fanOuts n'.fanIns branches .nil, { n' with fanIns := n'.fanIns + 1 })
    else (.nil, n)
  | .correlatedSubquery _ _ subqueryWhere, n =>
    let (child, n') := chainWhere subqueryWhere n
    (.join n'.joins child .nil, { n' with joins := n'.joins + 1 })

def chainWhere : Option Condition → Numbers → Chain × Numbers
  | none, n => (.nil, n)
  | some condition, n => condition.chain n

def chainAnd : List Condition → Numbers → Chain × Numbers
  | [], n => (.nil, n)
  | condition :: conditions, n =>
    let (chain, n) := condition.chain n
    let (chains, n) := chainAnd conditions n
    (chain.append chains, n)

def chainBranches : List Condition → Numbers → Branches × Numbers
  | [], n => (.nil, n)
  | condition :: conditions, n =>
    if hasCorrelatedSubquery condition then
      let (branch, n) := condition.chain n
      let (branches, n) := chainBranches conditions n
      (.cons branch branches, n)
    else chainBranches conditions n

end

theorem Chain.append_ne_nil_left {a : Chain} (h : a ≠ .nil) {b : Chain} : a.append b ≠ .nil := by
  cases a with
  | nil => exact absurd rfl h
  | join => exact nofun
  | or => exact nofun

theorem Chain.append_ne_nil_right {a b : Chain} (h : b ≠ .nil) : a.append b ≠ .nil := by
  cases a with
  | nil => exact h
  | join => exact nofun
  | or => exact nofun

theorem Chain.nodes_append (a b : Chain) : (a.append b).nodes = a.nodes ++ b.nodes := by
  match a with
  | .nil => rfl
  | .join i child rest => simp [append, nodes, nodes_append rest b]
  | .or fanOut fanIn branches rest => simp [append, nodes, nodes_append rest b]

theorem Chain.entry_append (a b : Chain) (next : Option PlannerNode) :
    (a.append b).entry next = a.entry (b.entry next) := by
  cases a <;> rfl

theorem Chain.exit_append (a b : Chain) : (a.append b).exit = b.exit.or a.exit := by
  match a with
  | .nil => simp [append, exit]
  | .join i child rest => cases h : b.exit <;> cases h' : rest.exit <;> simp [append, exit, exit_append rest b, h, h']
  | .or fanOut fanIn branches rest =>
    cases h : b.exit <;> cases h' : rest.exit <;> simp [append, exit, exit_append rest b, h, h']

theorem Chain.exit_eq_none {chain : Chain} : chain.exit = none ↔ chain = .nil := by
  cases chain <;> simp [exit]

theorem Chain.entry_of_ne {chain : Chain} (h : chain ≠ .nil) (next : Option PlannerNode) :
    chain.entry next = chain.entry none := by
  cases chain with
  | nil => exact absurd rfl h
  | join => rfl
  | or => rfl

theorem Chain.entry_mem {chain : Chain} {node : PlannerNode} (h : chain.entry none = some node) :
    node ∈ chain.nodes := by
  cases chain with
  | nil => cases h
  | join i child rest =>
    cases h
    exact List.mem_cons_self
  | or fanOut fanIn branches rest =>
    cases h
    exact List.mem_cons_self

theorem Chain.exit_mem {chain : Chain} {node : PlannerNode} (h : chain.exit = some node) :
    node ∈ chain.nodes ∧ ((∃ i, node = .join i) ∨ ∃ i, node = .fanIn i) := by
  match chain with
  | .nil => cases h
  | .join i child rest =>
    rw [exit, Option.some.injEq] at h
    cases hrest : rest.exit with
    | none =>
      rw [hrest] at h
      exact ⟨h ▸ List.mem_cons_self, .inl ⟨i, h.symm⟩⟩
    | some last =>
      rw [hrest] at h
      have hlast := exit_mem hrest
      rw [Option.getD_some] at h
      exact h ▸ ⟨by simp [nodes, hlast.1], hlast.2⟩
  | .or fanOut fanIn branches rest =>
    rw [exit, Option.some.injEq] at h
    cases hrest : rest.exit with
    | none =>
      rw [hrest] at h
      exact ⟨h ▸ by simp [nodes], .inr ⟨fanIn, h.symm⟩⟩
    | some last =>
      rw [hrest] at h
      have hlast := exit_mem hrest
      rw [Option.getD_some] at h
      exact h ▸ ⟨by simp [nodes, hlast.1], hlast.2⟩

/-! ## The numbers of the nodes -/

/-- Whether a node of a chain is one of the first `n`. -/
def PlannerNode.Below (n : Numbers) : PlannerNode → Prop
  | .join i => i < n.joins
  | .fanOut i => i < n.fanOuts
  | .fanIn i => i < n.fanIns
  | .connection _ | .terminus => False

/-- The nodes are those that the numbers from `n` to `n'` name, once each. -/
structure Numbered (n n' : Numbers) (nodes : List PlannerNode) : Prop where
  mono : ∀ node : PlannerNode, node.Below n → node.Below n'
  nodup : nodes.Nodup
  mem_iff : ∀ node, node ∈ nodes ↔ node.Below n' ∧ ¬ node.Below n

namespace Numbered

theorem nil (n : Numbers) : Numbered n n [] :=
  ⟨fun _ h => h, List.nodup_nil, fun node => by simp⟩

theorem append {n n' n'' : Numbers} {a b : List PlannerNode} (ha : Numbered n n' a) (hb : Numbered n' n'' b) :
    Numbered n n'' (a ++ b) := by
  refine ⟨fun node h => hb.mono node (ha.mono node h), List.nodup_append.2 ⟨ha.nodup, hb.nodup, ?_⟩, fun node => ?_⟩
  · intro x hx y hy heq
    subst heq
    exact ((hb.mem_iff x).1 hy).2 ((ha.mem_iff x).1 hx).1
  · have hmono := ha.mono node
    have hmono' := hb.mono node
    rw [List.mem_append, ha.mem_iff, hb.mem_iff]
    tauto

theorem perm {n n' : Numbers} {a b : List PlannerNode} (ha : Numbered n n' a) (h : a.Perm b) : Numbered n n' b :=
  ⟨ha.mono, h.nodup_iff.1 ha.nodup, fun node => by rw [← h.mem_iff, ha.mem_iff]⟩

theorem join (n : Numbers) : Numbered n { n with joins := n.joins + 1 } [.join n.joins] := by
  refine ⟨fun node h => ?_, List.nodup_singleton _, fun node => ?_⟩ <;> cases node <;>
    simp [PlannerNode.Below] at * <;> omega

theorem fanOut (n : Numbers) : Numbered n { n with fanOuts := n.fanOuts + 1 } [.fanOut n.fanOuts] := by
  refine ⟨fun node h => ?_, List.nodup_singleton _, fun node => ?_⟩ <;> cases node <;>
    simp [PlannerNode.Below] at * <;> omega

theorem fanIn (n : Numbers) : Numbered n { n with fanIns := n.fanIns + 1 } [.fanIn n.fanIns] := by
  refine ⟨fun node h => ?_, List.nodup_singleton _, fun node => ?_⟩ <;> cases node <;>
    simp [PlannerNode.Below] at * <;> omega

end Numbered

/-! ## Wires -/

mutual

/-- The wires along a chain, up to what follows it, if that is there yet. -/
def Chain.Wired (outputs : PlannerNode → List PlannerNode) : Chain → Option PlannerNode → Prop
  | .nil, _ => True
  | .join i child rest, next =>
    (∀ node ∈ rest.entry next, outputs (.join i) = [node]) ∧ child.Wired outputs (some (.join i)) ∧
      rest.Wired outputs next
  | .or fanOut fanIn branches rest, next =>
    (∀ node ∈ rest.entry next, outputs (.fanIn fanIn) = [node]) ∧ outputs (.fanOut fanOut) = branches.ends ∧
      branches.Wired outputs (some (.fanIn fanIn)) ∧ rest.Wired outputs next

def Branches.Wired (outputs : PlannerNode → List PlannerNode) : Branches → Option PlannerNode → Prop
  | .nil, _ => True
  | .cons branch branches, next => branch ≠ .nil ∧ branch.Wired outputs next ∧ branches.Wired outputs next

end

mutual

theorem Chain.Wired.congr {outputs outputs' : PlannerNode → List PlannerNode} {chain : Chain}
    {next : Option PlannerNode} (h : chain.Wired outputs next)
    (hsame : ∀ node ∈ chain.nodes, outputs' node = outputs node) : chain.Wired outputs' next := by
  match chain with
  | .nil => trivial
  | .join i child rest =>
    obtain ⟨hnext, hchild, hrest⟩ := h
    refine ⟨fun node hnode => ?_, ?_, ?_⟩
    · rw [hsame _ List.mem_cons_self]
      exact hnext node hnode
    · exact hchild.congr fun node hnode => hsame node (by simp [Chain.nodes, hnode])
    · exact hrest.congr fun node hnode => hsame node (by simp [Chain.nodes, hnode])
  | .or fanOut fanIn branches rest =>
    obtain ⟨hnext, hout, hbranches, hrest⟩ := h
    refine ⟨fun node hnode => ?_, ?_, ?_, ?_⟩
    · rw [hsame _ (by simp [Chain.nodes])]
      exact hnext node hnode
    · rw [hsame _ (by simp [Chain.nodes])]
      exact hout
    · exact Branches.Wired.congr hbranches fun node hnode => hsame node (by simp [Chain.nodes, hnode])
    · exact hrest.congr fun node hnode => hsame node (by simp [Chain.nodes, hnode])

theorem Branches.Wired.congr {outputs outputs' : PlannerNode → List PlannerNode} {branches : Branches}
    {next : Option PlannerNode} (h : branches.Wired outputs next)
    (hsame : ∀ node ∈ branches.nodes, outputs' node = outputs node) : branches.Wired outputs' next := by
  match branches with
  | .nil => trivial
  | .cons branch branches =>
    obtain ⟨hne, hbranch, hbranches⟩ := h
    refine ⟨hne, ?_, ?_⟩
    · exact hbranch.congr fun node hnode => hsame node (by simp [Branches.nodes, hnode])
    · exact hbranches.congr fun node hnode => hsame node (by simp [Branches.nodes, hnode])

end

theorem Chain.Wired.append {outputs : PlannerNode → List PlannerNode} {a b : Chain} {next : Option PlannerNode}
    (ha : a.Wired outputs (b.entry next)) (hb : b.Wired outputs next) : (a.append b).Wired outputs next := by
  match a with
  | .nil => exact hb
  | .join i child rest =>
    obtain ⟨hnext, hchild, hrest⟩ := ha
    rw [← Chain.entry_append] at hnext
    exact ⟨hnext, hchild, hrest.append hb⟩
  | .or fanOut fanIn branches rest =>
    obtain ⟨hnext, hout, hbranches, hrest⟩ := ha
    rw [← Chain.entry_append] at hnext
    exact ⟨hnext, hout, hbranches, hrest.append hb⟩

/-- The last node of a chain that begins with `first`. -/
theorem Chain.exit_getD {rest : Chain} {first node : PlannerNode} :
    some (rest.exit.getD first) = some node ↔ rest.exit = some node ∨ rest = .nil ∧ first = node := by
  have hnil : rest = .nil ↔ rest.exit = none := exit_eq_none.symm
  rw [hnil]
  cases rest.exit with
  | none => simp
  | some last => simp

theorem Chain.entry_extend {outputs outputs' : PlannerNode → List PlannerNode} {rest : Chain} {first next : PlannerNode}
    (hnext : ∀ node ∈ rest.entry none, outputs first = [node]) (hfirst : first ∉ rest.nodes)
    (hsame : some (rest.exit.getD first) ≠ some first → outputs' first = outputs first)
    (hexit : ∀ node ∈ some (rest.exit.getD first), outputs' node = [next]) :
    ∀ node ∈ rest.entry (some next), outputs' first = [node] := by
  intro node hnode
  by_cases hrest : rest = .nil
  · subst hrest
    cases hnode
    exact hexit first rfl
  · rw [entry_of_ne hrest] at hnode
    rw [hsame fun hlast => ?_]
    · exact hnext node hnode
    · obtain hlast | ⟨hnil, -⟩ := exit_getD.1 hlast
      · exact hfirst (exit_mem hlast).1
      · exact hrest hnil

theorem Chain.Wired.extend {outputs outputs' : PlannerNode → List PlannerNode} {chain : Chain} {next : PlannerNode}
    (h : chain.Wired outputs none) (hnodup : chain.nodes.Nodup)
    (hsame : ∀ node ∈ chain.nodes, chain.exit ≠ some node → outputs' node = outputs node)
    (hexit : ∀ node ∈ chain.exit, outputs' node = [next]) : chain.Wired outputs' (some next) := by
  match chain with
  | .nil => trivial
  | .join i child rest =>
    obtain ⟨hnext, hchild, hrest⟩ := h
    obtain ⟨hi, hnodup⟩ := List.nodup_cons.1 hnodup
    obtain ⟨-, hnodup, hdisjoint⟩ := List.nodup_append.1 hnodup
    rw [List.mem_append, not_or] at hi
    have hin : ∀ node ∈ rest.nodes, node ∈ (join i child rest).nodes := fun node hnode => by simp [nodes, hnode]
    refine ⟨entry_extend hnext hi.2 (hsame _ List.mem_cons_self) hexit, ?_, ?_⟩
    · refine hchild.congr fun node hnode => hsame node (by simp [nodes, hnode]) fun hlast => ?_
      obtain hlast | ⟨-, rfl⟩ := exit_getD.1 hlast
      · exact hdisjoint node hnode node (exit_mem hlast).1 rfl
      · exact hi.1 hnode
    · refine hrest.extend hnodup (fun node hnode hne => hsame node (hin node hnode) fun hlast => ?_) fun node hnode =>
        hexit node (exit_getD.2 (.inl hnode))
      obtain hlast | ⟨rfl, -⟩ := exit_getD.1 hlast
      · exact hne hlast
      · cases hnode
  | .or fanOut fanIn branches rest =>
    obtain ⟨hnext, hout, hbranches, hrest⟩ := h
    obtain ⟨hfanOut, hnodup⟩ := List.nodup_cons.1 hnodup
    obtain ⟨hfanIn, hnodup⟩ := List.nodup_cons.1 hnodup
    obtain ⟨-, hnodup, hdisjoint⟩ := List.nodup_append.1 hnodup
    rw [List.mem_append, not_or] at hfanIn
    have hin : ∀ node ∈ rest.nodes, node ∈ (or fanOut fanIn branches rest).nodes := fun node hnode => by
      simp [nodes, hnode]
    refine ⟨entry_extend hnext hfanIn.2 (hsame _ (by simp [nodes])) hexit, ?_, ?_, ?_⟩
    · rw [hsame _ List.mem_cons_self fun hlast => ?_, hout]
      obtain ⟨-, ⟨i, hi⟩ | ⟨i, hi⟩⟩ := exit_mem hlast
      · cases hi
      · cases hi
    · refine Branches.Wired.congr hbranches fun node hnode => hsame node (by simp [nodes, hnode]) fun hlast => ?_
      obtain hlast | ⟨-, rfl⟩ := exit_getD.1 hlast
      · exact hdisjoint node hnode node (exit_mem hlast).1 rfl
      · exact hfanIn.1 hnode
    · refine hrest.extend hnodup (fun node hnode hne => hsame node (hin node hnode) fun hlast => ?_) fun node hnode =>
        hexit node (exit_getD.2 (.inl hnode))
      obtain hlast | ⟨rfl, -⟩ := exit_getD.1 hlast
      · exact hne hlast
      · cases hnode

theorem Branches.exits_subset {branches : Branches} : branches.exits ⊆ branches.nodes := by
  match branches with
  | .nil => exact List.Subset.refl _
  | .cons branch branches =>
    intro node hnode
    obtain hnode | hnode := List.mem_append.1 hnode
    · exact List.mem_append_left _ (Chain.exit_mem (Option.mem_toList.1 hnode)).1
    · exact List.mem_append_right _ (exits_subset hnode)

theorem Branches.Wired.extend {outputs outputs' : PlannerNode → List PlannerNode} {branches : Branches}
    {next : PlannerNode} (h : branches.Wired outputs none) (hnodup : branches.nodes.Nodup)
    (hsame : ∀ node ∈ branches.nodes, node ∉ branches.exits → outputs' node = outputs node)
    (hexit : ∀ node ∈ branches.exits, outputs' node = [next]) : branches.Wired outputs' (some next) := by
  match branches with
  | .nil => trivial
  | .cons branch branches =>
    obtain ⟨hne, hbranch, hbranches⟩ := h
    obtain ⟨hnodupbranch, hnodup, hdisjoint⟩ := List.nodup_append.1 hnodup
    refine ⟨hne, hbranch.extend hnodupbranch (fun node hnode hlast => ?_) fun node hnode => ?_,
      Branches.Wired.extend hbranches hnodup (fun node hnode hlast => ?_) fun node hnode => ?_⟩
    · refine hsame node (List.mem_append_left _ hnode) fun hmem => ?_
      obtain hmem | hmem := List.mem_append.1 hmem
      · exact hlast (Option.mem_toList.1 hmem)
      · exact hdisjoint node hnode node (exits_subset hmem) rfl
    · exact hexit node (List.mem_append_left _ (Option.mem_toList.2 hnode))
    · refine hsame node (List.mem_append_right _ hnode) fun hmem => ?_
      obtain hmem | hmem := List.mem_append.1 hmem
      · exact hdisjoint node (Chain.exit_mem (Option.mem_toList.1 hmem)).1 node hnode rfl
      · exact hlast hmem
    · exact hexit node (List.mem_append_right _ hnode)

end ZeroSync.PlanGraph
