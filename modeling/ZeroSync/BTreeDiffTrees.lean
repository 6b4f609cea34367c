/-
The diff of two trees, from the runs of entries that their splices leave.

A splice is a group of entries that one of the lists has and the other does
not, between entries that both have (`Spliced`). The children that both have
keep apart what is below the groups, so that the leaves that `diffNodes` merges
are the runs of a cut of the two trees (`mergedLeaves_spec`).
-/
import ZeroSync.BTreeDiffFacts
import ZeroSync.BTreeHashes

namespace ZeroSync

open NodeImpl

variable {V α : Type} {deepEqual : DeepEqual V}

/-! ## Splices -/

/-- The group of two lists, if there is anything in it. -/
def group (A B : List α) : List (List α × List α) := if A = [] ∧ B = [] then [] else [(A, B)]

/-- Two lists in groups, after each an element that both have. -/
inductive Spliced (same : α → α → Prop) : List α → List α → List (List α × List α) → Prop
  | last (A B : List α) : Spliced same A B (group A B)
  | same {A B P C parts p c} : same p c → Spliced same P C parts → Spliced same (A ++ p :: P) (B ++ c :: C) (group A B ++ parts)

/-- What a splice cuts out of two lists. -/
def Splice.cut (previous current : List α) (splice : Splice) : List α × List α :=
  ((previous.take (splice.at_ + splice.removed)).drop splice.at_,
    (current.take (splice.from_.getD 0 + splice.added)).drop (splice.from_.getD 0))

/-- The splice of a group that is not complete. -/
def openSplice (at_ from_ removed added : ℕ) : Splice := ⟨at_, removed, added, if added = 0 then none else some from_⟩

/-- `splice`, in front of a group of which some is done. -/
def pendingSplice (at_ from_ removed added : ℕ) : Option Splice :=
  if removed = 0 ∧ added = 0 then none else some (openSplice at_ from_ removed added)

open Splice

variable {at_ from_ removed added : ℕ}

@[simp] theorem orNew_pendingSplice :
    orNew (at_ + removed) (pendingSplice at_ from_ removed added) = openSplice at_ from_ removed added := by
  rw [pendingSplice]
  split
  · next h =>
    obtain ⟨rfl, rfl⟩ := h
    rfl
  · rfl

theorem removed_openSplice {s : Splice} (hs : s = openSplice at_ from_ removed added) (k : ℕ) :
    { s with removed := s.removed + k } = openSplice at_ from_ (removed + k) added := by
  rw [hs]
  rfl

theorem added_openSplice {s : Splice} (hs : s = openSplice at_ from_ removed added) {k : ℕ} (hk : 0 < k) :
    { s with added := s.added + k }.ensureAssigned (from_ + added) = openSplice at_ from_ removed (added + k) := by
  rw [hs]
  rcases Nat.eq_zero_or_pos added with rfl | hpos
  · simp [openSplice, ensureAssigned, hk.ne']
  · simp [openSplice, ensureAssigned, hpos.ne', hk.ne']

theorem changed_openSplice {s : Splice} (hs : s = openSplice at_ from_ removed added) :
    { s with added := s.added + 1, removed := s.removed + 1 }.ensureAssigned (from_ + added) =
      openSplice at_ from_ (removed + 1) (added + 1) := by
  rw [hs]
  rcases Nat.eq_zero_or_pos added with rfl | hpos
  · simp [openSplice, ensureAssigned]
  · simp [openSplice, ensureAssigned, hpos.ne']

theorem some_openSplice (h : 0 < removed ∨ 0 < added) :
    some (openSplice at_ from_ removed added) = pendingSplice at_ from_ removed added := by
  rw [pendingSplice, if_neg (by omega)]

variable {P A Q C B D : List α}

@[simp] theorem cut_ensureAssigned (previous current : List α) (splice : Splice) :
    (splice.ensureAssigned 0).cut previous current = splice.cut previous current := by
  rw [Splice.cut, Splice.cut, ensureAssigned]
  split
  · next h => simp [h]
  · rfl

theorem cut_openSplice :
    (openSplice P.length C.length A.length B.length).cut (P ++ (A ++ Q)) (C ++ (B ++ D)) = (A, B) := by
  have hremoved : ((P ++ (A ++ Q)).take (P.length + A.length)).drop P.length = A := by simp [List.take_append]
  rcases List.eq_nil_or_concat B with rfl | ⟨init, b, rfl⟩
  · simp [Splice.cut, openSplice, hremoved]
  · simp [Splice.cut, openSplice, List.take_append]

theorem cut_pendingSplice :
    (((pendingSplice P.length C.length A.length B.length).map (ensureAssigned 0)).toList.map
      (Splice.cut (P ++ (A ++ Q)) (C ++ (B ++ D)))) = group A B := by
  rw [pendingSplice, group]
  simp only [List.length_eq_zero_iff]
  split
  · rfl
  · simp [cut_openSplice]

/-- The entries that `computeSplices` takes for the same. -/
def SameEntry (equal : α → α → Bool) (p c : BTreeEntry α) : Prop := p.key = c.key ∧ equal p.value c.value = true

theorem splicesFrom_spec {equal : α → α → Bool} {previous current P C A B : List (BTreeEntry α)} :
    ∃ parts, Spliced (SameEntry equal) (A ++ previous) (B ++ current) parts ∧
      (splicesFrom equal previous current (P.length + A.length) (C.length + B.length)
        (pendingSplice P.length C.length A.length B.length)).map
          (Splice.cut (P ++ (A ++ previous)) (C ++ (B ++ current))) = parts := by
  induction hn : previous.length + current.length using Nat.strong_induction_on generalizing previous current P C A B with
  | _ n ih =>
  cases previous with
  | nil =>
    cases current with
    | nil =>
      refine ⟨_, .last _ _, ?_⟩
      rw [splicesFrom, cut_pendingSplice, List.append_nil, List.append_nil]
    | cons c current =>
      refine ⟨_, .last _ _, ?_⟩
      have hcut := @cut_openSplice _ P A [] C (B ++ c :: current) []
      rw [List.append_nil (B ++ c :: current)] at hcut
      rw [splicesFrom, orNew_pendingSplice, group, if_neg (by simp), added_openSplice rfl (by simp : 0 < (c :: current).length),
        ← List.length_append, List.map_singleton, hcut, List.append_nil]
  | cons p previous =>
    cases current with
    | nil =>
      refine ⟨_, .last _ _, ?_⟩
      have hcut := @cut_openSplice _ P (A ++ p :: previous) [] C B []
      rw [List.append_nil (A ++ p :: previous)] at hcut
      rw [splicesFrom, orNew_pendingSplice, group, if_neg (by simp), removed_openSplice rfl, ← List.length_append,
        List.map_singleton, cut_ensureAssigned, hcut, List.append_nil]
    | cons c current =>
      rw [splicesFrom]
      split
      · next hkey =>
        split
        · next hequal =>
          obtain ⟨parts, hspliced, hparts⟩ := @ih _ (by simp at hn; omega) previous current (P ++ (A ++ [p]))
            (C ++ (B ++ [c])) [] [] rfl
          refine ⟨_, .same ⟨hkey, hequal⟩ hspliced, ?_⟩
          rw [List.map_append, cut_pendingSplice, ← hparts]
          simp [pendingSplice, Nat.add_assoc]
        · next hequal =>
          obtain ⟨parts, hspliced, hparts⟩ := @ih _ (by simp at hn; omega) previous current P
            C (A ++ [p]) (B ++ [c]) rfl
          rw [List.append_assoc, List.append_assoc] at hspliced
          refine ⟨_, hspliced, ?_⟩
          rw [← hparts]
          dsimp only
          rw [orNew_pendingSplice, changed_openSplice rfl, some_openSplice (.inl (Nat.succ_pos _))]
          simp [Nat.add_assoc]
      · split
        · obtain ⟨parts, hspliced, hparts⟩ := @ih _ (by simp at hn; simp; omega) previous (c :: current) P
            C (A ++ [p]) B rfl
          rw [List.append_assoc] at hspliced
          refine ⟨_, hspliced, ?_⟩
          rw [← hparts]
          dsimp only
          rw [orNew_pendingSplice, removed_openSplice rfl, some_openSplice (.inl (Nat.succ_pos _))]
          simp [Nat.add_assoc]
        · obtain ⟨parts, hspliced, hparts⟩ := @ih _ (by simp at hn; simp; omega) (p :: previous) current P
            C A (B ++ [c]) rfl
          rw [List.append_assoc] at hspliced
          refine ⟨_, hspliced, ?_⟩
          rw [← hparts]
          dsimp only
          rw [orNew_pendingSplice, added_openSplice rfl Nat.one_pos, some_openSplice (.inr (Nat.succ_pos _))]
          simp [Nat.add_assoc]

/-- **`computeSplices`** cuts out what is between the entries that both lists have. -/
theorem computeSplices_spec (equal : α → α → Bool) (previous current : List (BTreeEntry α)) :
    Spliced (SameEntry equal) previous current ((computeSplices equal previous current).map (Splice.cut previous current)) := by
  obtain ⟨_, hspliced, rfl⟩ := @splicesFrom_spec _ equal previous current [] [] [] []
  exact hspliced

/-! ## Runs of splices -/

theorem Spliced.cuts {same : α → α → Prop} {below : α → List (BTreeEntry V)} {P C : List α} {parts : List (List α × List α)}
    {runs : List (List (List (BTreeEntry V) × List (BTreeEntry V)))} (h : Spliced same P C parts)
    (hsame : ∀ p ∈ P, ∀ c ∈ C, same p c → below p = below c ∧ below p ≠ [])
    (hruns : List.Forall₂ (fun part runs => Cuts (part.1.flatMap below) (part.2.flatMap below) runs) parts runs) :
    Cuts (P.flatMap below) (C.flatMap below) runs.flatten := by
  have hgroup {A B : List α} {runs : List (List (List (BTreeEntry V) × List (BTreeEntry V)))}
      (h : List.Forall₂ (fun part runs => Cuts (part.1.flatMap below) (part.2.flatMap below) runs) (group A B) runs) :
      Cuts (A.flatMap below) (B.flatMap below) runs.flatten := by
    rw [group] at h
    split at h
    · next hnil =>
      rw [hnil.1, hnil.2, List.forall₂_nil_left_iff.mp h]
      exact .nil
    · obtain ⟨first, rest, hfirst, hrest, rfl⟩ := List.forall₂_cons_left_iff.mp h
      rw [List.forall₂_nil_left_iff.mp hrest, List.flatten_singleton]
      exact hfirst
  induction h generalizing runs with
  | last A B => exact hgroup hruns
  | @same A B P C parts p c hpc _ ih =>
    obtain ⟨hbelow, hne⟩ := hsame p (by simp) c (by simp) hpc
    have hfirst := (List.forall₂_take_append _ _ _ hruns.flip).flip
    have hrest := (List.forall₂_drop_append _ _ _ hruns.flip).flip
    have hcuts := ih (fun p' hp' c' hc' => hsame p' (by simp [hp']) c' (by simp [hc'])) hrest
    rw [← List.take_append_drop (group A B).length runs, List.flatten_append, List.flatMap_append, List.flatMap_append,
      List.flatMap_cons, List.flatMap_cons, ← hbelow]
    exact .shared hne (hgroup hfirst) hcuts

/-! ## Trees -/

/-- Equal hashes name nodes with equal entries below them. -/
def SharedHashes (last current : NodeImpl V) : Prop :=
  ∀ a b, Below last a → Below current b → a.hash = b.hash → a.entriesIter = b.entriesIter

/-- A node of a tree at a level, below its root. -/
structure Inner (next : ℕ) (root : NodeImpl V) (n : ℕ) (node : NodeImpl V) : Prop where
  valid : Valid next n node
  below : Below root node
  ne_nil : node.entriesIter ≠ []

/-- A node at a level whose entries are those of nodes of a tree, with what is below it. -/
inductive Layer (next : ℕ) (root : NodeImpl V) : ℕ → NodeImpl V → List (BTreeEntry V) → Prop
  | leaf {node L} : node.level = 0 → node.leafEntries = some L → Layer next root 0 node L
  | nodes {node n entries} : node.level = n + 1 → node.internalEntries = some entries →
      (∀ e ∈ entries, Inner next root n e.value) → Layer next root (n + 1) node (entries.flatMap fun e => e.value.entriesIter)

variable {next n : ℕ} {root node : NodeImpl V}

theorem NodeImpl.Valid.inner (h : Valid next (n + 1) node) (hbelow : Within root node) :
    ∃ entries, node.internalEntries = some entries ∧ node.entriesIter = entries.flatMap (fun e => e.value.entriesIter) ∧
      ∀ e ∈ entries, Inner next root n e.value := by
  cases h with
  | @internal _ _ _ entries _ _ _ hchild hkey =>
    refine ⟨entries, rfl, entriesIter_internal _ _ _ _, fun e he => ⟨hchild e he, ?_, fun hnil => ?_⟩⟩
    · exact Relation.TransGen.tail' hbelow ⟨entries, e, rfl, he, rfl⟩
    · have hlast : e.value.entriesIter.getLast?.map (·.key) = some e.key := hkey e he
      rw [hnil] at hlast
      cases hlast

theorem NodeImpl.Valid.layer (h : Valid next n root) : Layer next root n root root.entriesIter := by
  cases n with
  | zero =>
    cases h with
    | data _ _ =>
      rw [entriesIter_data]
      exact .leaf rfl rfl
  | succ n =>
    obtain ⟨entries, hentries, hiter, hinner⟩ := h.inner Relation.ReflTransGen.refl
    rw [hiter]
    exact .nodes h.level_eq hentries hinner

theorem mapM_leafEntries {nodes : List (NodeImpl V)} (h : ∀ node ∈ nodes, Inner next root 0 node) :
    nodes.mapM leafEntries = some (nodes.map (·.entriesIter)) := by
  induction nodes with
  | nil => rfl
  | cons node nodes ih =>
    obtain ⟨hnode, hnodes⟩ := List.forall_mem_cons.mp h
    have hentries : node.leafEntries = some node.entriesIter := by
      cases hnode.valid with
      | data _ _ => rw [entriesIter_data]; rfl
    rw [List.mapM_cons, hentries, ih hnodes]
    rfl

theorem mapM_internalEntries {nodes : List (NodeImpl V)} (h : ∀ node ∈ nodes, Inner next root (n + 1) node) :
    ∃ entries, nodes.mapM internalEntries = some entries ∧
      (entries.flatten.flatMap fun e => e.value.entriesIter) = nodes.flatMap (·.entriesIter) ∧
      ∀ e ∈ entries.flatten, Inner next root n e.value := by
  induction nodes with
  | nil => exact ⟨[], rfl, rfl, by simp⟩
  | cons node nodes ih =>
    obtain ⟨hnode, hnodes⟩ := List.forall_mem_cons.mp h
    obtain ⟨es, hes, hiter, hinner⟩ := hnode.valid.inner hnode.below.to_reflTransGen
    obtain ⟨entries, hentries, hflat, hinners⟩ := ih hnodes
    refine ⟨es :: entries, by rw [List.mapM_cons, hes, hentries]; rfl, ?_, ?_⟩
    · rw [List.flatten_cons, List.flatMap_append, hflat, List.flatMap_cons, hiter]
    · rw [List.flatten_cons]
      exact List.forall_mem_append.mpr ⟨hinner, hinners⟩

/-- **`getCompositeChildren`** is a node of the next level, with what is below the children. -/
theorem getCompositeChildren_spec {entries : List (BTreeEntry (NodeImpl V))} (h : ∀ e ∈ entries, Inner next root n e.value)
    (start length : ℕ) : ∃ child, getCompositeChildren (n + 1) entries start length = some child ∧
      Layer next root n child (((entries.take (start + length)).drop start).flatMap fun e => e.value.entriesIter) := by
  rw [getCompositeChildren]
  split
  · next hlength =>
    subst hlength
    refine ⟨_, rfl, ?_⟩
    have hnil : (entries.take (start + 0)).drop start = [] := by simp
    rw [hnil]
    cases n with
    | zero => exact .leaf rfl rfl
    | succ n => exact .nodes rfl rfl (by simp)
  · have hchildren : ∀ node ∈ getChildren entries start (start + length), Inner next root n node := by
      intro node hnode
      obtain ⟨e, he, rfl⟩ := List.mem_map.mp hnode
      exact h e (List.mem_of_mem_take (List.mem_of_mem_drop he))
    have hiter : (getChildren entries start (start + length)).flatMap (·.entriesIter) =
        ((entries.take (start + length)).drop start).flatMap fun e => e.value.entriesIter := List.flatMap_map ..
    dsimp only
    rw [← hiter]
    cases n with
    | zero =>
      rw [if_neg (by omega), if_pos rfl, mapM_leafEntries hchildren]
      exact ⟨_, rfl, .leaf rfl (by rw [List.flatMap_def]; rfl)⟩
    | succ n =>
      obtain ⟨es, hes, hflat, hinner⟩ := mapM_internalEntries hchildren
      rw [if_pos (by omega), hes, ← hflat]
      exact ⟨_, rfl, .nodes rfl rfl hinner⟩

theorem exists_forall₂ {β γ : Type} {R : β → γ → Prop} {l : List β} (h : ∀ x ∈ l, ∃ y, R x y) :
    ∃ ys, List.Forall₂ R l ys := by
  induction l with
  | nil => exact ⟨[], .nil⟩
  | cons x l ih =>
    obtain ⟨⟨y, hy⟩, hl⟩ := List.forall_mem_cons.mp h
    obtain ⟨ys, hys⟩ := ih hl
    exact ⟨y :: ys, .cons hy hys⟩

theorem mapM_of_forall₂ {β γ δ : Type} {f : β → Option γ} {g : δ → γ} {l : List β} {ys : List δ}
    (h : List.Forall₂ (fun x y => f x = some (g y)) l ys) : l.mapM f = some (ys.map g) := by
  induction h with
  | nil => rfl
  | cons hx _ ih =>
    rw [List.mapM_cons, hx, ih]
    rfl

/-! ## Nodes -/

variable {next' m : ℕ} {last current lastNode currentNode : NodeImpl V} {L C : List (BTreeEntry V)}

theorem Layer.level_eq (h : Layer next root n node L) : node.level = n := by
  cases h with
  | leaf hlevel _ => exact hlevel
  | nodes hlevel _ _ => exact hlevel

section

variable {β : Type} {diffLeaves : List (BTreeEntry V) → List (BTreeEntry V) → List β} {child : NodeImpl V}
  {lastEntries currentEntries : List (BTreeEntry (NodeImpl V))}

theorem diffNodesWith_last (hlevel : currentNode.level < lastNode.level)
    (hentries : lastNode.internalEntries = some lastEntries)
    (hchild : getCompositeChildren lastNode.level lastEntries 0 lastEntries.length = some child) :
    diffNodesWith diffLeaves lastNode currentNode = diffNodesWith diffLeaves child currentNode := by
  rw [diffNodesWith, dif_pos hlevel, hentries]
  dsimp only
  split
  · next h =>
    rw [hchild] at h
    cases h
  · next h =>
    rw [hchild] at h
    cases h
    rfl

theorem diffNodesWith_current (hlevel : lastNode.level < currentNode.level)
    (hentries : currentNode.internalEntries = some currentEntries)
    (hchild : getCompositeChildren currentNode.level currentEntries 0 currentEntries.length = some child) :
    diffNodesWith diffLeaves lastNode currentNode = diffNodesWith diffLeaves lastNode child := by
  rw [diffNodesWith, dif_neg (lt_asymm hlevel), dif_pos hlevel, hentries]
  dsimp only
  split
  · next h =>
    rw [hchild] at h
    cases h
  · next h =>
    rw [hchild] at h
    cases h
    rfl

/-- What `diffNodes` does with a splice. -/
def diffSplice (diffLeaves : List (BTreeEntry V) → List (BTreeEntry V) → List β) (level : ℕ)
    (lastEntries currentEntries : List (BTreeEntry (NodeImpl V))) (splice : Splice) : Option (List β) := do
  let lastChild ← getCompositeChildren level lastEntries splice.at_ splice.removed
  let currentChild ← getCompositeChildren level currentEntries (splice.from_.getD 0) splice.added
  diffNodesWith diffLeaves lastChild currentChild

theorem diffNodesWith_splices (hlevel : lastNode.level = currentNode.level) (hpos : lastNode.level ≠ 0)
    (hlast : lastNode.internalEntries = some lastEntries) (hcurrent : currentNode.internalEntries = some currentEntries) :
    diffNodesWith diffLeaves lastNode currentNode =
      ((computeSplices (fun a b => a.hash == b.hash) lastEntries currentEntries).mapM
        (diffSplice diffLeaves lastNode.level lastEntries currentEntries)).map List.flatten := by
  rw [diffNodesWith, dif_neg (by omega), dif_neg (by omega), dif_neg hpos, hlast, hcurrent, Option.map_eq_bind]
  let splices := computeSplices (fun a b : NodeImpl V => a.hash == b.hash) lastEntries currentEntries
  refine congrArg (fun f : Splice → Option (List β) => Option.bind (splices.mapM f) (some ∘ List.flatten))
    (funext fun splice => ?_)
  rw [diffSplice, hlevel]
  split
  · next hl hc =>
    rw [hl, hc]
    rfl
  · next hnone =>
    cases hl : getCompositeChildren currentNode.level lastEntries splice.at_ splice.removed with
    | none => rfl
    | some lastChild =>
      cases hc : getCompositeChildren currentNode.level currentEntries (splice.from_.getD 0) splice.added with
      | none => rfl
      | some currentChild => exact absurd hc (hnone lastChild currentChild hl)

end

/-- A walk that does with runs of two lists what it is given for two leaves. -/
structure Walks (walk : (β : Type) → (List (BTreeEntry V) → List (BTreeEntry V) → List β) → Option (List β))
    (L C : List (BTreeEntry V)) (runs : List (List (BTreeEntry V) × List (BTreeEntry V))) : Prop where
  cuts : Cuts L C runs
  walk : ∀ (β : Type) (diffLeaves : List (BTreeEntry V) → List (BTreeEntry V) → List β),
    walk β diffLeaves = some (runs.flatMap fun r => diffLeaves r.1 r.2)

/-- **`diffNodes`** walks runs of the two trees. -/
theorem diffNodesWith_spec (hhash : SharedHashes last current) (hlast : Layer next last n lastNode L)
    (hcurrent : Layer next' current m currentNode C) :
    ∃ runs, Walks (fun _ diffLeaves => diffNodesWith diffLeaves lastNode currentNode) L C runs := by
  induction hk : n + m using Nat.strong_induction_on generalizing n m lastNode currentNode L C with
  | _ k ih =>
  have hlevel := hlast.level_eq
  have hlevel' := hcurrent.level_eq
  rcases lt_trichotomy n m with hlt | heq | hgt
  · cases hcurrent with
    | leaf => omega
    | @nodes _ m entries _ hentries hinner =>
      obtain ⟨child, hchild, hlayer⟩ := getCompositeChildren_spec hinner 0 entries.length
      obtain ⟨runs, hruns, hwalk⟩ := ih (n + m) (by omega) hlast hlayer rfl
      rw [Nat.zero_add, List.take_length, List.drop_zero] at hruns
      refine ⟨runs, hruns, fun β diffLeaves => ?_⟩
      rw [diffNodesWith_current (by omega) hentries (by rw [hlevel']; exact hchild)]
      exact hwalk β diffLeaves
  · subst heq
    cases hlast with
    | leaf _ hentries =>
      cases hcurrent with
      | leaf _ hentries' =>
        refine ⟨[(L, C)], .run L C, fun β diffLeaves => ?_⟩
        rw [diffNodesWith, dif_neg (by omega), dif_neg (by omega), dif_pos hlevel, hentries, hentries', List.flatMap_singleton]
    | @nodes _ n entries _ hentries hinner =>
      cases hcurrent with
      | @nodes _ _ entries' _ hentries' hinner' =>
        have hsplices := computeSplices_spec (fun a b : NodeImpl V => a.hash == b.hash) entries entries'
        have hsplice : ∀ splice ∈ computeSplices (fun a b : NodeImpl V => a.hash == b.hash) entries entries', ∃ runs,
            Walks (fun _ diffLeaves => diffSplice diffLeaves lastNode.level entries entries' splice)
              ((splice.cut entries entries').1.flatMap fun e => e.value.entriesIter)
              ((splice.cut entries entries').2.flatMap fun e => e.value.entriesIter) runs := by
          intro splice _
          obtain ⟨child, hchild, hlayer⟩ := getCompositeChildren_spec hinner splice.at_ splice.removed
          obtain ⟨child', hchild', hlayer'⟩ := getCompositeChildren_spec hinner' (splice.from_.getD 0) splice.added
          obtain ⟨runs, hruns, hwalk⟩ := ih (n + n) (by omega) hlayer hlayer' rfl
          refine ⟨runs, hruns, fun β diffLeaves => ?_⟩
          rw [diffSplice, hlevel, hchild, hchild']
          exact hwalk β diffLeaves
        obtain ⟨runs, hruns⟩ := exists_forall₂ hsplice
        refine ⟨runs.flatten, hsplices.cuts (fun p hp c hc hsame => ⟨?_, (hinner p hp).ne_nil⟩) ?_, fun β diffLeaves => ?_⟩
        · exact hhash _ _ (hinner p hp).below (hinner' c hc).below (by simpa using hsame.2)
        · exact List.forall₂_map_left_iff.mpr (hruns.imp fun _ _ h => h.cuts)
        · rw [diffNodesWith_splices (by omega) (by omega) hentries hentries',
            mapM_of_forall₂ (hruns.imp fun _ _ h => h.walk β diffLeaves), Option.map_some, ← List.flatMap_def,
            ← @List.flatMap_id _ runs, List.flatMap_assoc]
          rfl
  · cases hlast with
    | leaf => omega
    | @nodes _ n entries _ hentries hinner =>
      obtain ⟨child, hchild, hlayer⟩ := getCompositeChildren_spec hinner 0 entries.length
      obtain ⟨runs, hruns, hwalk⟩ := ih (n + m) (by omega) hlayer hcurrent rfl
      rw [Nat.zero_add, List.take_length, List.drop_zero] at hruns
      refine ⟨runs, hruns, fun β diffLeaves => ?_⟩
      rw [diffNodesWith_last (by omega) hentries (by rw [hlevel]; exact hchild)]
      exact hwalk β diffLeaves

/-- The pairs of leaves that `diffNodes` merges are runs of the two trees, and their merges its result. -/
theorem mergedLeaves_spec (hlast : Valid next n last) (hcurrent : Valid next' m current) (hhash : SharedHashes last current)
    (deepEqual : DeepEqual V) : ∃ runs, mergedLeaves last current = some runs ∧ Cuts last.entriesIter current.entriesIter runs ∧
      diffNodes deepEqual last current = some (runs.flatMap fun r => diffEntries deepEqual r.1 r.2) := by
  obtain ⟨runs, hruns, hwalk⟩ := diffNodesWith_spec hhash hlast.layer hcurrent.layer
  refine ⟨runs, ?_, hruns, hwalk _ _⟩
  have hmerged : _ = some (runs.flatMap fun r => [r]) := hwalk _ fun lastEntries currentEntries => [(lastEntries, currentEntries)]
  rwa [List.flatMap_singleton'] at hmerged

/-- **The diff of two trees** is exact if and only if in each pair of leaves that is merged UTF-16 places what only
one of them has as the trees do. -/
theorem diffNodes_exact_iff (hlast : Valid next n last) (hcurrent : Valid next' m current)
    (hL : AscendingKeys last.entriesIter) (hC : AscendingKeys current.entriesIter) (hhash : SharedHashes last current)
    (deepEqual : DeepEqual V) : ∃ ops runs, diffNodes deepEqual last current = some ops ∧ mergedLeaves last current = some runs ∧
      (IsExact deepEqual last.entriesIter current.entriesIter ops ↔ ∀ r ∈ runs, Agree r.1 r.2) := by
  obtain ⟨runs, hmerged, hruns, hdiff⟩ := mergedLeaves_spec hlast hcurrent hhash deepEqual
  refine ⟨_, runs, hdiff, hmerged, ?_⟩
  rw [← hruns.diff_eq_iff hL hC]
  have hexact : IsDiff deepEqual _ _ _ := hruns.isDiff hL hC
  refine ⟨fun h => h.isDiff.eq hexact, fun h => ?_⟩
  rw [h]
  exact hexact.isExact hL hC

theorem sharedHashes_data (last : NodeImpl V) (hash : ℕ) (modified : Bool) (entries : List (BTreeEntry V)) :
    SharedHashes last (.data hash modified entries) := by
  intro a b _ hb _
  obtain ⟨_, ⟨_, _, hentries, _⟩, _⟩ := (Relation.TransGen.head'_iff).mp hb
  cases hentries

/-- Equality of numbers. -/
def natEqual : DeepEqual ℕ := ⟨fun a b => a == b, beq_self_eq_true⟩

/-- A leaf of entries of one size. -/
def leaf (hash : ℕ) (entries : List (String × ℕ)) : NodeImpl ℕ := .data hash false (entries.map fun e => ⟨e.1, e.2, 1⟩)

theorem valid_leaf {hash : ℕ} (h : hash < next) (entries : List (String × ℕ)) : Valid next 0 (leaf hash entries) :=
  .data h fun e he => by
    obtain ⟨_, _, rfl⟩ := List.mem_map.mp he
    exact one_pos

theorem leaf_level (hash : ℕ) (entries : List (String × ℕ)) : (leaf hash entries).level = 0 := rfl

/-- Two leaves under a node. -/
def twoLeaves : NodeImpl ℕ := .internal 3 false 1 [⟨"a", leaf 1 [("a", 1)], 1⟩, ⟨"b", leaf 2 [("b", 2)], 1⟩]

instance (L : List (BTreeEntry V)) : Decidable (AscendingKeys L) :=
  inferInstanceAs (Decidable (L.Pairwise fun a b => a.key < b.key))

theorem valid_twoLeaves : Valid 4 1 twoLeaves := by
  refine .internal (Nat.lt_succ_self 3) (by simp) (by simp) ?_ ?_
  · simpa using ⟨valid_leaf (by decide) _, valid_leaf (by decide) _⟩
  · simp [Blocks.Named, leaf]

theorem diffNodes_exact_twoLeaves :
    ∃ ops runs, diffNodes natEqual twoLeaves (leaf 4 [("b", 3), ("c", 4)]) = some ops ∧
      mergedLeaves twoLeaves (leaf 4 [("b", 3), ("c", 4)]) = some runs ∧
      (IsExact natEqual twoLeaves.entriesIter (leaf 4 [("b", 3), ("c", 4)]).entriesIter ops ↔ ∀ r ∈ runs, Agree r.1 r.2) := by
  have hiter : twoLeaves.entriesIter = [⟨"a", 1, 1⟩, ⟨"b", 2, 1⟩] := by simp [twoLeaves, leaf]
  refine diffNodes_exact_iff valid_twoLeaves (valid_leaf (Nat.lt_succ_self 4) _) ?_ ?_ (sharedHashes_data _ _ _ _) natEqual
  · rw [hiter]
    decide +kernel
  · rw [leaf, entriesIter_data]
    decide +kernel

/-- U+FF5E and U+1F600: the one that is first in a tree is last in UTF-16. -/
theorem diffNodes_unordered :
    (∃ n, Valid n 0 (leaf 1 [("～", 1), ("😀", 2)])) ∧ (∃ n, Valid n 0 (leaf 2 [("😀", 2)])) ∧
    AscendingKeys (leaf 1 [("～", 1), ("😀", 2)]).entriesIter ∧ AscendingKeys (leaf 2 [("😀", 2)]).entriesIter ∧
    SharedHashes (leaf 1 [("～", 1), ("😀", 2)]) (leaf 2 [("😀", 2)]) ∧
    diffNodes natEqual (leaf 1 [("～", 1), ("😀", 2)]) (leaf 2 [("😀", 2)]) =
      some [.add "😀" 2, .del "～" 1, .del "😀" 2] ∧
    ¬ IsExact natEqual (leaf 1 [("～", 1), ("😀", 2)]).entriesIter (leaf 2 [("😀", 2)]).entriesIter
        [.add "😀" 2, .del "～" 1, .del "😀" 2] := by
  refine ⟨⟨2, valid_leaf (by decide) _⟩, ⟨3, valid_leaf (by decide) _⟩, ?_, ?_, sharedHashes_data _ _ _ _, ?_, fun h => ?_⟩
  · rw [leaf, entriesIter_data]
    decide +kernel
  · rw [leaf, entriesIter_data]
    decide +kernel
  · have hlt : stringLt "～" "😀" = false := by decide +kernel
    rw [diffNodes, diffNodesWith, dif_neg (by decide), dif_neg (by decide), dif_pos (leaf_level ..)]
    simp [leaf, leafEntries, diffEntries, diffEntriesBy, hlt]
  · have hadd := ((h.isDiff.mem _).mp (List.mem_cons_self ..)).1
    exact hadd ⟨"😀", 2, 1⟩ (by simp [leaf]) rfl

end ZeroSync
