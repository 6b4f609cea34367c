/-
`buildPlanGraph` wires the nodes of a condition along its chain, and ends it with the
terminus (`buildPlanGraph_wired`).
-/
import ZeroSync.PlanGraphChain

namespace ZeroSync.PlanGraph

/-! ## One wire -/

/-- The outputs of a node after one more: only a fan-out keeps those it has. -/
def PlannerNode.withOutput (node : PlannerNode) (outputs : List PlannerNode) : Option PlannerNode → List PlannerNode
  | none => outputs
  | some target =>
    match node with
    | .fanOut _ => outputs ++ [target]
    | _ => [target]

namespace PlannerGraph

@[simp] theorem wireOutput_numbers (g : PlannerGraph) (source target : PlannerNode) :
    (g.wireOutput source target).numbers = g.numbers := by
  cases source <;> rfl

@[simp] theorem addJoin_outputs (g : PlannerGraph) (op : ExistsOp) (flip : Option Bool) :
    (g.addJoin op flip).outputs = g.outputs := by
  cases op <;> rcases flip with _ | _ | _ <;> rfl

@[simp] theorem addJoin_numbers (g : PlannerGraph) (op : ExistsOp) (flip : Option Bool) :
    (g.addJoin op flip).numbers = { g.numbers with joins := g.numbers.joins + 1 } := by
  cases op <;> rcases flip with _ | _ | _ <;> rfl

theorem wireOutput_of_ne (g : PlannerGraph) {source node : PlannerNode} (target : PlannerNode) (h : node ≠ source) :
    (g.wireOutput source target).outputs node = g.outputs node := by
  cases source with
  | terminus => rfl
  | _ => exact Function.update_of_ne h _ _

theorem wireOutput_self (g : PlannerGraph) {source : PlannerNode} (target : PlannerNode) (h : source ≠ .terminus) :
    (g.wireOutput source target).outputs source = source.withOutput (g.outputs source) (some target) := by
  cases source with
  | terminus => exact absurd rfl h
  | _ => exact Function.update_self ..

/-- Fan-outs that are not there yet have no outputs. -/
def Fresh (g : PlannerGraph) : Prop := ∀ i, g.numbers.fanOuts ≤ i → g.outputs (.fanOut i) = []

/-- What a chain can be built after. -/
def Has (g : PlannerGraph) (input : PlannerNode) : Prop := input.Below g.numbers ∨ ∃ i, input = .connection i

theorem Has.ne_terminus {g : PlannerGraph} {input : PlannerNode} (h : g.Has input) : input ≠ .terminus := by
  rintro rfl
  obtain h | ⟨i, h⟩ := h
  · exact h
  · cases h

theorem Has.not_mem {g : PlannerGraph} {input : PlannerNode} (h : g.Has input) {n' : Numbers} {nodes : List PlannerNode}
    (hnodes : Numbered g.numbers n' nodes) : input ∉ nodes := by
  rw [hnodes.mem_iff]
  obtain h | ⟨i, rfl⟩ := h
  · exact fun hmem => hmem.2 h
  · exact fun hmem => hmem.1

end PlannerGraph

theorem PlannerGraph.Fresh.wireOutput {g : PlannerGraph} (hg : g.Fresh) {source : PlannerNode} (hsource : g.Has source)
    (target : PlannerNode) : (g.wireOutput source target).Fresh := by
  intro i hi
  rw [PlannerGraph.wireOutput_numbers] at hi
  rw [PlannerGraph.wireOutput_of_ne]
  · exact hg i hi
  · rintro rfl
    obtain hbelow | ⟨j, hj⟩ := hsource
    · exact Nat.lt_irrefl _ (Nat.lt_of_lt_of_le hbelow hi)
    · cases hj

theorem PlannerGraph.Fresh.addFanOut {g : PlannerGraph} (hg : g.Fresh) {input : PlannerNode} (hinput : g.Has input) :
    (g.addFanOut.wireOutput input (.fanOut g.numbers.fanOuts)).Fresh := by
  have hadd : g.addFanOut.Fresh := fun i hi => hg i (Nat.le_of_succ_le hi)
  refine hadd.wireOutput ?_ _
  obtain hbelow | hconnection := hinput
  · exact .inl ((Numbered.fanOut g.numbers).mono input hbelow)
  · exact .inr hconnection

/-! ## Chains that are built -/

/-- A chain is added to a graph, after a node: its last node, and the graph with it. -/
structure Built (g : PlannerGraph) (input : PlannerNode) (chain : Chain) (last : PlannerNode) (g' : PlannerGraph) :
    Prop where
  numbered : Numbered g.numbers g'.numbers chain.nodes
  last : last = chain.exit.getD input
  wired : chain.Wired g'.outputs none
  grows : input.Below g.numbers → g'.outputs input = input.withOutput (g.outputs input) (chain.entry none)
  frame : ∀ node : PlannerNode, node.Below g.numbers → node ≠ input → g'.outputs node = g.outputs node
  fresh : g'.Fresh

namespace Built

variable {g g' g'' : PlannerGraph} {input last last' : PlannerNode}

theorem nil (hg : g.Fresh) : Built g input .nil input g :=
  ⟨.nil _, rfl, trivial, fun _ => rfl, fun _ _ _ => rfl, hg⟩

theorem has {chain : Chain} (h : Built g input chain last g') (hinput : g.Has input) : g'.Has last := by
  rw [h.last]
  cases hexit : chain.exit with
  | none =>
    obtain hinput | hinput := hinput
    · exact .inl (h.numbered.mono _ hinput)
    · exact .inr hinput
  | some node => exact .inl ((h.numbered.mem_iff node).1 (Chain.exit_mem hexit).1).1

theorem ne_last {chain : Chain} (h : Built g input chain last g') {node : PlannerNode} (hnode : node.Below g.numbers)
    (hne : chain = .nil → node ≠ input) : node ≠ last := by
  rw [h.last]
  cases hexit : chain.exit with
  | none => exact hne (Chain.exit_eq_none.1 hexit)
  | some x =>
    rintro rfl
    exact ((h.numbered.mem_iff _).1 (Chain.exit_mem hexit).1).2 hnode

theorem exit_of_last {chain : Chain} (h : Built g input chain last g') {node : PlannerNode} (heq : node = last)
    (hnode : node ∈ chain.nodes) : chain.exit = some node := by
  cases hexit : chain.exit with
  | none =>
    rw [Chain.exit_eq_none.1 hexit] at hnode
    cases hnode
  | some x => rw [heq, h.last, hexit, Option.getD_some]

theorem last_ne_fanOut {chain : Chain} {j : ℕ} (h : Built g (.connection j) chain last g') {i : ℕ} :
    PlannerNode.fanOut i ≠ last := by
  rw [h.last]
  cases hexit : chain.exit with
  | none => exact nofun
  | some x =>
    obtain ⟨-, ⟨k, rfl⟩ | ⟨k, rfl⟩⟩ := Chain.exit_mem hexit
    · exact nofun
    · exact nofun

theorem append {a b : Chain} (ha : Built g input a last g') (hb : Built g' last b last' g'') :
    Built g input (a.append b) last' g'' := by
  have hnotin : ∀ node ∈ a.nodes, node.Below g'.numbers := fun node hnode => ((ha.numbered.mem_iff node).1 hnode).1
  refine ⟨?_, ?_, ?_, fun hbelow => ?_, fun node hnode hne => ?_, hb.fresh⟩
  · rw [Chain.nodes_append]
    exact ha.numbered.append hb.numbered
  · rw [hb.last, ha.last, Chain.exit_append]
    cases b.exit <;> rfl
  · refine .append ?_ hb.wired
    have hsame : ∀ node ∈ a.nodes, a.exit ≠ some node → g''.outputs node = g'.outputs node := by
      intro node hnode hlast
      refine hb.frame node (hnotin node hnode) ?_
      rintro rfl
      cases hexit : a.exit with
      | none =>
        rw [Chain.exit_eq_none] at hexit
        subst hexit
        cases hnode
      | some x =>
        rw [ha.last, hexit] at hlast
        exact hlast rfl
    cases hentry : b.entry none with
    | none =>
      refine ha.wired.congr fun node hnode => ?_
      by_cases hlast : node = last
      · subst hlast
        rw [hb.grows (hnotin _ hnode), hentry]
        rfl
      · exact hb.frame node (hnotin node hnode) hlast
    | some first =>
      refine ha.wired.extend ha.numbered.nodup hsame fun node hnode => ?_
      have hlast : last = node := by
        rw [ha.last, hnode]
        rfl
      obtain ⟨hmem, hkind⟩ := Chain.exit_mem hnode
      subst hlast
      rw [hb.grows (hnotin _ hmem), hentry]
      obtain ⟨i, rfl⟩ | ⟨i, rfl⟩ := hkind
      · rfl
      · rfl
  · have hstart := ha.grows hbelow
    by_cases hnil : a = .nil
    · subst hnil
      obtain rfl : last = input := ha.last
      rw [hb.grows (ha.numbered.mono _ hbelow), hstart]
      rfl
    · rw [hb.frame input (ha.numbered.mono _ hbelow) (ha.ne_last hbelow fun h => absurd h hnil), hstart,
        Chain.entry_append, Chain.entry_of_ne hnil (b.entry none)]
  · rw [hb.frame node (ha.numbered.mono _ hnode) (ha.ne_last hnode fun _ => hne), ha.frame node hnode hne]

theorem join {child : Chain} (hinput : g.Has input) (op : ExistsOp) (flip : Option Bool)
    (h : Built g.addConnection (.connection g.connections) child last g') :
    Built g input (.join g'.numbers.joins child .nil) (.join g'.numbers.joins)
      (((g'.addJoin op flip).wireOutput input (.join g'.numbers.joins)).wireOutput last (.join g'.numbers.joins)) := by
  have hnumbered : Numbered g.numbers g'.numbers child.nodes := h.numbered
  have hinput' : input ∉ child.nodes := hinput.not_mem hnumbered
  have hnelast : ∀ node : PlannerNode, node.Below g.numbers → node ≠ last := fun node hnode =>
    h.ne_last hnode fun _ => by rintro rfl; exact hnode
  have hframe : ∀ node : PlannerNode, node.Below g.numbers → g'.outputs node = g.outputs node := fun node hnode =>
    h.frame node hnode (by rintro rfl; exact hnode)
  refine ⟨?_, rfl, ⟨fun node hnode => (by cases hnode), ?_, trivial⟩, fun hbelow => ?_, fun node hnode hne => ?_,
    fun i hi => ?_⟩
  · rw [PlannerGraph.wireOutput_numbers, PlannerGraph.wireOutput_numbers, PlannerGraph.addJoin_numbers]
    exact (hnumbered.append (.join _)).perm (by simp [Chain.nodes])
  · refine h.wired.extend hnumbered.nodup (fun node hnode hne => ?_) fun node hnode => ?_
    · rw [PlannerGraph.wireOutput_of_ne _ _ fun heq => ?_, PlannerGraph.wireOutput_of_ne _ _ fun heq => ?_,
        PlannerGraph.addJoin_outputs]
      · exact hinput' (heq ▸ hnode)
      · exact hne (h.exit_of_last heq hnode)
    · rw [Option.mem_def] at hnode
      have hlast : last = node := by rw [h.last, hnode]; rfl
      obtain ⟨-, hkind⟩ := Chain.exit_mem hnode
      subst hlast
      obtain ⟨i, rfl⟩ | ⟨i, rfl⟩ := hkind
      · rw [PlannerGraph.wireOutput_self _ _ (by simp)]
        rfl
      · rw [PlannerGraph.wireOutput_self _ _ (by simp)]
        rfl
  · rw [PlannerGraph.wireOutput_of_ne _ _ (hnelast input hbelow), PlannerGraph.wireOutput_self _ _ hinput.ne_terminus,
      PlannerGraph.addJoin_outputs, hframe input hbelow]
    rfl
  · rw [PlannerGraph.wireOutput_of_ne _ _ (hnelast node hnode), PlannerGraph.wireOutput_of_ne _ _ hne,
      PlannerGraph.addJoin_outputs, hframe node hnode]
  · simp only [PlannerGraph.wireOutput_numbers, PlannerGraph.addJoin_numbers] at hi
    have hnelast : PlannerNode.fanOut i ≠ last := h.last_ne_fanOut
    have hneinput : PlannerNode.fanOut i ≠ input := by
      rintro rfl
      obtain hbelow | ⟨j, hj⟩ := hinput
      · exact Nat.lt_irrefl _ (Nat.lt_of_lt_of_le (hnumbered.mono _ hbelow) hi)
      · cases hj
    rw [PlannerGraph.wireOutput_of_ne _ _ hnelast, PlannerGraph.wireOutput_of_ne _ _ hneinput,
      PlannerGraph.addJoin_outputs]
    exact h.fresh i hi

end Built

/-! ## Branches that are built -/

/-- Branches are added after a fan-out that is there: their last nodes, and the graph with them. -/
structure BuiltBranches (g : PlannerGraph) (fanOut : ℕ) (branches : Branches) (lasts : List PlannerNode)
    (g' : PlannerGraph) : Prop where
  numbered : Numbered g.numbers g'.numbers branches.nodes
  lasts : lasts = branches.exits
  wired : branches.Wired g'.outputs none
  grows : g'.outputs (.fanOut fanOut) = g.outputs (.fanOut fanOut) ++ branches.ends
  frame : ∀ node : PlannerNode, node.Below g.numbers → node ≠ .fanOut fanOut → g'.outputs node = g.outputs node
  fresh : g'.Fresh

namespace BuiltBranches

variable {g g' g'' : PlannerGraph} {fanOut : ℕ} {last : PlannerNode} {lasts : List PlannerNode}

theorem nil (hg : g.Fresh) : BuiltBranches g fanOut .nil [] g :=
  ⟨.nil _, rfl, trivial, (List.append_nil _).symm, fun _ _ _ => rfl, hg⟩

theorem cons {branch : Chain} {branches : Branches} (hfanOut : (PlannerNode.fanOut fanOut).Below g.numbers)
    (hne : branch ≠ .nil) (h : Built g (.fanOut fanOut) branch last g')
    (hs : BuiltBranches (g'.wireOutput (.fanOut fanOut) last) fanOut branches lasts g'') :
    BuiltBranches g fanOut (.cons branch branches) (last :: lasts) g'' := by
  obtain ⟨exit, hexit⟩ := Option.ne_none_iff_exists'.1 fun hnone => hne (Chain.exit_eq_none.1 hnone)
  have hlast : last = exit := by rw [h.last, hexit, Option.getD_some]
  have hnumbered := hs.numbered
  rw [PlannerGraph.wireOutput_numbers] at hnumbered
  have hframe : ∀ node : PlannerNode, node.Below g'.numbers → node ≠ .fanOut fanOut →
      g''.outputs node = g'.outputs node := by
    intro node hnode hnefan
    rw [hs.frame node (by rwa [PlannerGraph.wireOutput_numbers]) hnefan, PlannerGraph.wireOutput_of_ne _ _ hnefan]
  refine ⟨h.numbered.append hnumbered, ?_, ⟨hne, ?_, hs.wired⟩, ?_, fun node hnode hnefan => ?_, hs.fresh⟩
  · rw [Branches.exits, hexit, hs.lasts, hlast]
    rfl
  · refine h.wired.congr fun node hnode => ?_
    obtain ⟨hbelow, hnot⟩ := (h.numbered.mem_iff node).1 hnode
    exact hframe node hbelow fun heq => hnot (heq ▸ hfanOut)
  · rw [hs.grows, PlannerGraph.wireOutput_self _ _ (by simp), h.grows hfanOut]
    cases hentry : branch.entry none with
    | none =>
      cases branch with
      | nil => exact absurd rfl hne
      | join => cases hentry
      | or => cases hentry
    | some entry => simp [PlannerNode.withOutput, Branches.ends, hentry, hexit, hlast]
  · rw [hframe node (h.numbered.mono _ hnode) hnefan, h.frame node hnode hnefan]

end BuiltBranches

theorem PlannerGraph.foldl_wireOutput (g : PlannerGraph) (target : PlannerNode) {lasts : List PlannerNode}
    (hlasts : ∀ node ∈ lasts, (∃ i, node = .join i) ∨ ∃ i, node = .fanIn i) (node : PlannerNode) :
    (lasts.foldl (fun g branch => g.wireOutput branch target) g).outputs node =
      if node ∈ lasts then [target] else g.outputs node := by
  induction lasts generalizing g with
  | nil => rfl
  | cons last lasts ih =>
    rw [List.foldl_cons, ih _ fun node hnode => hlasts node (List.mem_cons_of_mem _ hnode)]
    by_cases hmem : node ∈ lasts
    · simp [hmem]
    · rw [if_neg hmem]
      by_cases hlast : node = last
      · subst hlast
        rw [if_pos List.mem_cons_self]
        obtain ⟨i, rfl⟩ | ⟨i, rfl⟩ := hlasts node List.mem_cons_self
        · exact PlannerGraph.wireOutput_self _ _ (by simp)
        · exact PlannerGraph.wireOutput_self _ _ (by simp)
      · rw [PlannerGraph.wireOutput_of_ne _ _ hlast, if_neg (by simp [hlast, hmem])]

@[simp] theorem PlannerGraph.foldl_wireOutput_numbers (g : PlannerGraph) (target : PlannerNode)
    (lasts : List PlannerNode) :
    (lasts.foldl (fun g branch => g.wireOutput branch target) g).numbers = g.numbers := by
  induction lasts generalizing g with
  | nil => rfl
  | cons last lasts ih => rw [List.foldl_cons, ih, PlannerGraph.wireOutput_numbers]

theorem Branches.exits_kind {branches : Branches} {node : PlannerNode} (h : node ∈ branches.exits) :
    (∃ i, node = .join i) ∨ ∃ i, node = .fanIn i := by
  match branches with
  | .nil => cases h
  | .cons branch branches =>
    obtain h | h := List.mem_append.1 h
    · exact (Chain.exit_mem (Option.mem_toList.1 h)).2
    · exact exits_kind h

theorem Built.or {g g' : PlannerGraph} {input : PlannerNode} {branches : Branches} {lasts : List PlannerNode}
    (hg : g.Fresh) (hinput : g.Has input)
    (h : BuiltBranches (g.addFanOut.wireOutput input (.fanOut g.numbers.fanOuts)) g.numbers.fanOuts branches lasts g') :
    Built g input (.or g.numbers.fanOuts g'.numbers.fanIns branches .nil) (.fanIn g'.numbers.fanIns)
      (lasts.foldl (fun g branch => g.wireOutput branch (.fanIn g'.numbers.fanIns)) g'.addFanIn) := by
  have hfanOut := Numbered.fanOut g.numbers
  have hnumbered : Numbered { g.numbers with fanOuts := g.numbers.fanOuts + 1 } g'.numbers branches.nodes := by
    have hnumbered := h.numbered
    rwa [PlannerGraph.wireOutput_numbers] at hnumbered
  have hneinput : PlannerNode.fanOut g.numbers.fanOuts ≠ input := by
    rintro rfl
    exact hinput.not_mem hfanOut (List.mem_singleton_self _)
  have hkind : ∀ node ∈ lasts, (∃ i, node = .join i) ∨ ∃ i, node = .fanIn i := by
    rw [h.lasts]
    exact fun node => Branches.exits_kind
  have hnotfan : ∀ i, PlannerNode.fanOut i ∉ lasts := by
    intro i hmem
    obtain ⟨j, hj⟩ | ⟨j, hj⟩ := hkind _ hmem
    · cases hj
    · cases hj
  have houtputs := g'.addFanIn.foldl_wireOutput (.fanIn g'.numbers.fanIns) hkind
  have hold : ∀ node : PlannerNode, node.Below g.numbers → node ∉ lasts := by
    intro node hnode hmem
    rw [h.lasts] at hmem
    exact ((hnumbered.mem_iff node).1 (Branches.exits_subset hmem)).2 (hfanOut.mono node hnode)
  have hframe : ∀ node : PlannerNode, node.Below g.numbers →
      g'.outputs node = (g.addFanOut.wireOutput input (.fanOut g.numbers.fanOuts)).outputs node := by
    intro node hnode
    refine h.frame node ?_ ?_
    · rw [PlannerGraph.wireOutput_numbers]
      exact hfanOut.mono node hnode
    · rintro rfl
      exact Nat.lt_irrefl _ hnode
  refine ⟨?_, rfl, ⟨fun node hnode => (by cases hnode), ?_, ?_, trivial⟩, fun hbelow => ?_, fun node hnode hne => ?_,
    fun i hi => ?_⟩
  · rw [PlannerGraph.foldl_wireOutput_numbers]
    refine ((hfanOut.append hnumbered).append (.fanIn _)).perm ?_
    simp [Chain.nodes]
  · have hnone :
        (g.addFanOut.wireOutput input (.fanOut g.numbers.fanOuts)).outputs (.fanOut g.numbers.fanOuts) = [] := by
      rw [PlannerGraph.wireOutput_of_ne _ _ hneinput]
      exact hg _ (Nat.le_refl _)
    rw [houtputs, if_neg (hnotfan _)]
    show g'.outputs _ = _
    rw [h.grows, hnone, List.nil_append]
  · refine h.wired.extend hnumbered.nodup (fun node _ hlast => ?_) fun node hlast => ?_
    · rw [houtputs, if_neg (by rwa [h.lasts])]
      rfl
    · rw [houtputs, if_pos (by rwa [h.lasts])]
  · rw [houtputs, if_neg (hold _ hbelow)]
    exact (hframe _ hbelow).trans (PlannerGraph.wireOutput_self _ _ hinput.ne_terminus)
  · rw [houtputs, if_neg (hold _ hnode)]
    exact (hframe _ hnode).trans (PlannerGraph.wireOutput_of_ne _ _ hne)
  · rw [PlannerGraph.foldl_wireOutput_numbers] at hi
    rw [houtputs, if_neg (hnotfan i)]
    exact h.fresh i hi

/-! ## The whole graph -/

mutual

theorem chain_ne_nil {condition : Condition} (h : hasCorrelatedSubquery condition = true) (n : Numbers) :
    (condition.chain n).1 ≠ .nil := by
  match condition with
  | .simple => cases h
  | .and conditions => exact chainAnd_ne_nil h n
  | .or conditions =>
    rw [hasCorrelatedSubquery] at h
    rw [Condition.chain, if_pos h]
    exact nofun
  | .correlatedSubquery op flip subqueryWhere => exact nofun

theorem chainAnd_ne_nil {conditions : List Condition} (h : someCorrelatedSubquery conditions = true) (n : Numbers) :
    (chainAnd conditions n).1 ≠ .nil := by
  match conditions with
  | [] => cases h
  | condition :: conditions =>
    rw [someCorrelatedSubquery, Bool.or_eq_true] at h
    rw [chainAnd]
    obtain h | h := h
    · exact Chain.append_ne_nil_left (chain_ne_nil h n)
    · exact Chain.append_ne_nil_right (chainAnd_ne_nil h _)

end

mutual

theorem built_processCondition (condition : Condition) {input : PlannerNode} {g : PlannerGraph} (hg : g.Fresh)
    (hinput : g.Has input) :
    (condition.chain g.numbers).2 = (processCondition condition input g).2.numbers ∧
      Built g input (condition.chain g.numbers).1 (processCondition condition input g).1
        (processCondition condition input g).2 := by
  match condition with
  | .simple => exact ⟨rfl, .nil hg⟩
  | .and conditions => exact built_processAnd conditions hg hinput
  | .or conditions =>
    rw [Condition.chain, processCondition]
    split
    · have hfanOut : (PlannerNode.fanOut g.numbers.fanOuts).Below
          (g.addFanOut.wireOutput input (.fanOut g.numbers.fanOuts)).numbers := by
        rw [PlannerGraph.wireOutput_numbers]
        exact Nat.lt_succ_self _
      obtain ⟨hnumbers, hbuilt⟩ := built_processBranches conditions (hg.addFanOut hinput) hfanOut
      have hor := Built.or hg hinput hbuilt
      rw [PlannerGraph.wireOutput_numbers] at hnumbers hor
      have hstart : g.addFanOut.numbers = { g.numbers with fanOuts := g.numbers.fanOuts + 1 } := rfl
      rw [hstart] at hnumbers hor
      simp only [hnumbers, PlannerGraph.foldl_wireOutput_numbers]
      exact ⟨rfl, hor⟩
    · exact ⟨rfl, .nil hg⟩
  | .correlatedSubquery op flip subqueryWhere =>
    rw [Condition.chain, processCondition]
    have hgc : g.addConnection.Fresh := hg
    obtain ⟨hnumbers, hbuilt⟩ := built_processWhere subqueryWhere hgc (.inr ⟨g.connections, rfl⟩)
    have hjoin := Built.join hinput op flip hbuilt
    have hstart : g.addConnection.numbers = g.numbers := rfl
    rw [hstart] at hnumbers hjoin
    simp only [hnumbers, PlannerGraph.wireOutput_numbers, PlannerGraph.addJoin_numbers]
    exact ⟨trivial, hjoin⟩

theorem built_processWhere (subqueryWhere : Option Condition) {input : PlannerNode} {g : PlannerGraph} (hg : g.Fresh)
    (hinput : g.Has input) :
    (chainWhere subqueryWhere g.numbers).2 = (processWhere subqueryWhere input g).2.numbers ∧
      Built g input (chainWhere subqueryWhere g.numbers).1 (processWhere subqueryWhere input g).1
        (processWhere subqueryWhere input g).2 := by
  match subqueryWhere with
  | none => exact ⟨rfl, .nil hg⟩
  | some condition => exact built_processCondition condition hg hinput

theorem built_processAnd (conditions : List Condition) {input : PlannerNode} {g : PlannerGraph} (hg : g.Fresh)
    (hinput : g.Has input) :
    (chainAnd conditions g.numbers).2 = (processAnd conditions input g).2.numbers ∧
      Built g input (chainAnd conditions g.numbers).1 (processAnd conditions input g).1
        (processAnd conditions input g).2 := by
  match conditions with
  | [] => exact ⟨rfl, .nil hg⟩
  | condition :: conditions =>
    obtain ⟨hnumbers, hbuilt⟩ := built_processCondition condition hg hinput
    obtain ⟨hnumbers', hbuilt'⟩ := built_processAnd conditions hbuilt.fresh (hbuilt.has hinput)
    rw [chainAnd, processAnd]
    simp only [hnumbers]
    exact ⟨hnumbers', hbuilt.append hbuilt'⟩

theorem built_processBranches (conditions : List Condition) {fanOut : ℕ} {g : PlannerGraph} (hg : g.Fresh)
    (hfanOut : (PlannerNode.fanOut fanOut).Below g.numbers) :
    (chainBranches conditions g.numbers).2 = (processBranches conditions (.fanOut fanOut) g).2.numbers ∧
      BuiltBranches g fanOut (chainBranches conditions g.numbers).1 (processBranches conditions (.fanOut fanOut) g).1
        (processBranches conditions (.fanOut fanOut) g).2 := by
  match conditions with
  | [] => exact ⟨rfl, .nil hg⟩
  | condition :: conditions =>
    rw [chainBranches, processBranches]
    split
    · rename_i hsubquery
      obtain ⟨hnumbers, hbuilt⟩ := built_processCondition condition hg (.inl hfanOut)
      have hfanOut' : (PlannerNode.fanOut fanOut).Below (processCondition condition (.fanOut fanOut) g).2.numbers :=
        hbuilt.numbered.mono _ hfanOut
      have hfresh := hbuilt.fresh.wireOutput (.inl hfanOut') (processCondition condition (.fanOut fanOut) g).1
      obtain ⟨hnumbers', hbuilt'⟩ := built_processBranches conditions hfresh
        (by rwa [PlannerGraph.wireOutput_numbers])
      have hcons := BuiltBranches.cons hfanOut (chain_ne_nil hsubquery g.numbers) hbuilt hbuilt'
      rw [PlannerGraph.wireOutput_numbers] at hnumbers' hcons
      simp only [hnumbers]
      exact ⟨hnumbers', hcons⟩
    · exact built_processBranches conditions hg hfanOut

end

/-- The chain of a query's condition. -/
def queryChain (condition : Option Condition) : Chain := (chainWhere condition {}).1

/-- **The graph of a query is wired along the chain of its condition**, up to the terminus, and has no other nodes. -/
theorem buildPlanGraph_wired (condition : Option Condition) :
    (queryChain condition).Wired (buildPlanGraph condition).outputs (some .terminus) ∧
      Numbered {} (buildPlanGraph condition).numbers (queryChain condition).nodes ∧
      (buildPlanGraph condition).Fresh := by
  have hg : ({} : PlannerGraph).addConnection.Fresh := fun _ _ => rfl
  have hinput : ({} : PlannerGraph).addConnection.Has (.connection 0) := .inr ⟨0, rfl⟩
  obtain ⟨hnumbers, hbuilt⟩ := built_processWhere condition hg hinput
  have hlast := hbuilt.has hinput
  have hgraph : buildPlanGraph condition =
      (processWhere condition (.connection 0) ({} : PlannerGraph).addConnection).2.wireOutput
        (processWhere condition (.connection 0) ({} : PlannerGraph).addConnection).1 .terminus := rfl
  rw [hgraph]
  refine ⟨?_, ?_, hbuilt.fresh.wireOutput hlast _⟩
  · refine hbuilt.wired.extend hbuilt.numbered.nodup (fun node hnode hne => ?_) fun node hnode => ?_
    · exact PlannerGraph.wireOutput_of_ne _ _ fun heq => hne (hbuilt.exit_of_last heq hnode)
    · rw [Option.mem_def] at hnode
      have heq : (processWhere condition (.connection 0) ({} : PlannerGraph).addConnection).1 = node := by
        rw [hbuilt.last, hnode]
        rfl
      obtain ⟨-, hkind⟩ := Chain.exit_mem hnode
      rw [heq]
      obtain ⟨i, rfl⟩ | ⟨i, rfl⟩ := hkind
      · rw [PlannerGraph.wireOutput_self _ _ (by simp)]
        rfl
      · rw [PlannerGraph.wireOutput_self _ _ (by simp)]
        rfl
  · rw [PlannerGraph.wireOutput_numbers]
    exact hbuilt.numbered

end ZeroSync.PlanGraph
