/-
When a scan keeps its promises although the tree changes.

The calls of the newest scan come first, and lead to what is still to come; the
calls of the scans that were given up for it have old children left, which must
not be read (`Scan.Clean`). What is to come has every key that has been in the
tree all the time and is not yet yielded (`Scanning`).
-/
import ZeroSync.BTreeScan
import ZeroSync.BTreeDiffFacts

namespace ZeroSync

open NodeImpl SortedList BinarySearch Blocks

variable {V : Type} {next n level hash : ℕ} {modified : Bool} {root node child a : NodeImpl V}
  {entries : List (BTreeEntry (NodeImpl V))} {fromKey key : String}

/-! ## Nodes of a tree -/

theorem Child.sublist (h : Child node child) : child.entriesIter.Sublist node.entriesIter := by
  obtain ⟨es, e, hes, he, rfl⟩ := h
  cases node with
  | data => cases hes
  | internal hash modified level entries =>
    cases hes
    obtain ⟨A, B, rfl⟩ := List.append_of_mem he
    rw [entriesIter_internal, List.flatMap_append, List.flatMap_cons]
    exact (List.sublist_append_left _ _).trans (List.sublist_append_right _ _)

theorem Within.sublist (h : Within node a) : a.entriesIter.Sublist node.entriesIter := by
  induction h with
  | refl => exact List.Sublist.refl _
  | tail _ hchild ih => exact hchild.sublist.trans ih

theorem Within.valid (h : Within node a) (hv : Valid next n node) : ∃ m, Valid next m a := by
  induction h with
  | refl => exact ⟨n, hv⟩
  | tail _ hchild ih =>
    obtain ⟨m, hm⟩ := ih
    cases hm with
    | data => exact absurd hchild not_child_data
    | internal _ _ _ hchildren _ =>
      obtain ⟨e, he, rfl⟩ := child_internal.mp hchild
      exact ⟨_, hchildren e he⟩

/-! ## Where a loop starts -/

/-- The entries from a key on. -/
def entriesFrom (fromKey : String) (L : List (BTreeEntry V)) : List (BTreeEntry V) := L.filter fun e => decide (fromKey ≤ e.key)

theorem empty_le (key : String) : "" ≤ key := by
  rw [← not_lt, String.lt_iff_toList_lt]
  exact List.not_lt_nil _

theorem entriesFrom_empty (L : List (BTreeEntry V)) : entriesFrom "" L = L :=
  List.filter_eq_self.mpr fun e _ => decide_eq_true (empty_le e.key)

theorem entriesFrom_append (L M : List (BTreeEntry V)) : entriesFrom fromKey (L ++ M) = entriesFrom fromKey L ++ entriesFrom fromKey M :=
  List.filter_append ..

theorem mem_entriesFrom {L : List (BTreeEntry V)} {e : BTreeEntry V} : e ∈ entriesFrom fromKey L ↔ e ∈ L ∧ fromKey ≤ e.key := by
  rw [entriesFrom, List.mem_filter, decide_eq_true_eq]

theorem entriesFrom_of_lt {L : List (BTreeEntry V)} (h : ∀ x ∈ L, toKey x fromKey = .lt) : entriesFrom fromKey L = [] :=
  List.filter_eq_nil_iff.mpr fun x hx hle => absurd (compare_lt_iff_lt.mp (h x hx)) (not_lt.mpr (of_decide_eq_true hle))

theorem entriesFrom_of_gt {L : List (BTreeEntry V)} (h : ∀ x ∈ L, toKey x fromKey = .gt) : entriesFrom fromKey L = L :=
  List.filter_eq_self.mpr fun x hx => decide_eq_true (compare_gt_iff_gt.mp (h x hx)).le

/-- The entries that a loop over children comes to. -/
def childrenFrom (fromKey : String) : List (BTreeEntry (NodeImpl V)) → List (BTreeEntry V)
  | [] => []
  | e :: rest => entriesFrom fromKey e.value.entriesIter ++ rest.flatMap fun e => e.value.entriesIter

theorem childrenFrom_empty (entries : List (BTreeEntry (NodeImpl V))) :
    childrenFrom "" entries = entries.flatMap fun e => e.value.entriesIter := by
  cases entries with
  | nil => rfl
  | cons e rest => rw [childrenFrom, entriesFrom_empty, List.flatMap_cons]

theorem drop_startIndex {L : List (BTreeEntry V)} (hs : Sorted byKey L) (fromKey : String) :
    L.drop (startIndex fromKey L) = entriesFrom fromKey L := by
  by_cases hfrom : fromKey = ""
  · rw [startIndex, if_pos hfrom, hfrom, entriesFrom_empty, List.drop_zero]
  · have hdrop := (place_located hs fromKey).filter_drop (fun o => o != .lt) rfl rfl
    have hindex : (if (place fromKey L).isFound && !(Ordering.eq != .lt) then (place fromKey L).index + 1
        else (place fromKey L).index) = (place fromKey L).index := if_neg (by simp)
    rw [hindex] at hdrop
    rw [startIndex, if_neg hfrom, binarySearch, ← hdrop, entriesFrom]
    refine List.filter_congr fun e _ => ?_
    rw [Bool.eq_iff_iff, bne_iff_ne, decide_eq_true_eq]
    exact compare_ge_iff_ge

theorem childrenFrom_startIndex (hv : ValidEntries next n entries)
    (hs : Sorted byKey (entries.flatMap fun e => e.value.entriesIter)) (fromKey : String) :
    childrenFrom fromKey (entries.drop (startIndex fromKey entries)) =
      entriesFrom fromKey (entries.flatMap fun e => e.value.entriesIter) := by
  by_cases hfrom : fromKey = ""
  · rw [startIndex, if_pos hfrom, hfrom, entriesFrom_empty, List.drop_zero, childrenFrom_empty]
  · rw [startIndex, if_neg hfrom]
    rcases hv.route hs fromKey with ⟨hindex, hlt⟩ | ⟨A, e, B, rfl, hindex, hlt, hgt⟩
    · rw [hindex, List.drop_length, entriesFrom_of_lt hlt, childrenFrom]
    · rw [hindex, List.drop_left, List.flatMap_append, List.flatMap_cons, entriesFrom_append, entriesFrom_append,
        entriesFrom_of_lt hlt, entriesFrom_of_gt hgt, List.nil_append, childrenFrom]

/-! ## Calls -/

namespace ScanCall

/-- The root hash that a call expects. -/
def expected : ScanCall V → ℕ
  | .read expectedRootHash _ _ | .children expectedRootHash _ _ | .entries expectedRootHash _ => expectedRootHash

/-- What a call comes to, if the nodes are those that it knows. -/
def pending : ScanCall V → List (BTreeEntry V)
  | .read _ node fromKey => entriesFrom fromKey node.entriesIter
  | .children _ fromKey entries => childrenFrom fromKey entries
  | .entries _ entries => entries

/-- The nodes that a call reads. -/
def nodes : ScanCall V → List (NodeImpl V)
  | .read _ node _ => [node]
  | .children _ _ entries => entries.map (·.value)
  | .entries _ _ => []

/-- Not in the loop of a leaf. -/
def isLeaf : ScanCall V → Bool
  | .entries _ _ => true
  | _ => false

/-- In the loop of an internal node. -/
def isLoop : ScanCall V → Bool
  | .children _ _ _ => true
  | _ => false

end ScanCall

namespace Scan

open ScanCall BTreeWrite

variable {s s' : Scan V} {t : BTreeWrite V} {tree : BTreeSizes V} {expected : ℕ} {c : ScanCall V} {live live' stale : List (ScanCall V)}
  {answer : NodeImpl V}

/-- A scan reads a child, or the root of a tree of more than one leaf, only while the root is the one that it was
(re)started with; and each `del` keeps the levels of the tree. -/
def Clean (s : Scan V) : ScanEvent V → Prop
  | .put _ _ => True
  | .del key => KeepsLevels key s.tree
  | .next _ =>
    match s.calls with
    | .read expectedRootHash node _ :: _ =>
      s.tree.root.hash = expectedRootHash ∨ node.hash = expectedRootHash ∧ node.level = 0
    | _ => True

/-- A call of a scan that was given up. -/
structure Stale (t : BTreeWrite V) (c : ScanCall V) : Prop where
  gone : Gone c.expected t
  ne : ∀ node ∈ c.nodes, node.hash ≠ c.expected
  not_leaf : c.isLeaf = false

/-- A call for the root of the newest scan, which has not read anything yet. -/
structure Restarts (fromKey : String) (s : Scan V) (expected : ℕ) (c : ScanCall V) : Prop where
  call : ∃ node key, c = .read expected node key ∧ node.hash = expected ∧ fromKey ≤ key ∧ ∀ y ∈ s.yielded, y.1.key < key

/-- A node that a call of the newest scan reads. -/
structure Known (s : Scan V) (root : ℕ) (node : NodeImpl V) : Prop where
  empty : node.hash = BTreeWrite.emptyHash → node.entriesIter = []
  within : s.tree.root.hash = root → Within s.tree.root node

/-- What is still to come. -/
abbrev toCome (live : List (ScanCall V)) : List (BTreeEntry V) := live.flatMap ScanCall.pending

/-- The calls of the newest scan, and those of the scans before it. -/
structure Scanning (fromKey : String) (s : Scan V) (root : ℕ) (live stale : List (ScanCall V)) : Prop where
  calls : s.calls = live ++ stale
  expects : ∀ c ∈ live, c.expected = root
  loops : ∀ c ∈ live.tail, c.isLoop = true
  inner : (∀ c ∈ live, ∀ node ∈ c.nodes, node.hash ≠ root) ∨ ∃ c, live = [c] ∧ Restarts fromKey s root c
  givenUp : ∀ c ∈ stale, Stale s.tree c
  hash : s.tree.root.hash = root ∨ Gone root s.tree
  ascending : AscendingKeys (toCome live)
  later : ∀ y ∈ s.yielded, ∀ e ∈ toCome live, y.1.key < e.key
  ge : ∀ e ∈ toCome live, fromKey ≤ e.key
  left : ∀ key ∈ s.stayed, fromKey ≤ key → (∃ y ∈ s.yielded, y.1.key = key) ∨ ∃ e ∈ toCome live, e.key = key
  current : s.tree.root.hash = root → ∀ e ∈ toCome live, e ∈ s.tree.entries
  known : ∀ c ∈ live, ∀ node ∈ c.nodes, Known s root node

theorem Stale.of_gone (h : Stale t c) {t' : BTreeWrite V} (hgone : ∀ hash, Gone hash t → Gone hash t') : Stale t' c :=
  ⟨hgone _ h.gone, h.ne, h.not_leaf⟩

theorem mem_change_stayed : key ∈ (s.change t).stayed ↔ key ∈ s.stayed ∧ ∃ e ∈ t.entries, e.key = key := by
  simp [change]

theorem Scanning.replaced (h : Scanning fromKey s expected live stale) (hr : Replaced s.tree t) :
    Scanning fromKey (s.change t) expected live stale := by
  have hgone : Gone expected t := h.hash.elim (fun hroot => hroot ▸ hr.root) fun hgone => hr.gone _ hgone
  exact {
    calls := h.calls
    expects := h.expects
    loops := h.loops
    inner := h.inner.imp_right fun ⟨c, hc, hrestart⟩ => ⟨c, hc, ⟨hrestart.call⟩⟩
    givenUp := fun c hc => (h.givenUp c hc).of_gone hr.gone
    hash := .inr hgone
    ascending := h.ascending
    later := h.later
    ge := h.ge
    left := fun key hkey => h.left key (mem_change_stayed.mp hkey).1
    current := fun hroot => absurd hroot (hgone.ne _ .refl)
    known := fun c hc node hnode => ⟨(h.known c hc node hnode).empty, fun hroot => absurd hroot (hgone.ne _ .refl)⟩ }

theorem Scanning.kept (h : Scanning fromKey s expected live stale) (hroot : t.root = s.tree.root)
    (hle : s.tree.nextHash ≤ t.nextHash) : Scanning fromKey (s.change t) expected live stale where
  calls := h.calls
  expects := h.expects
  loops := h.loops
  inner := h.inner.imp_right fun ⟨c, hc, hrestart⟩ => ⟨c, hc, ⟨hrestart.call⟩⟩
  givenUp := fun c hc => (h.givenUp c hc).of_gone fun _ hg => hg.mono hroot hle
  hash := h.hash.imp (fun heq => hroot ▸ heq) fun hg => hg.mono hroot hle
  ascending := h.ascending
  later := h.later
  ge := h.ge
  left := fun key hkey => h.left key (mem_change_stayed.mp hkey).1
  current := fun heq e he => by
    have hmem := h.current (hroot ▸ heq) e he
    rw [BTreeWrite.entries, ← hroot] at hmem
    exact hmem
  known := fun c hc node hnode => by
    refine ⟨(h.known c hc node hnode).empty, fun heq => ?_⟩
    have hwithin := (h.known c hc node hnode).within (hroot ▸ heq)
    rw [← hroot] at hwithin
    exact hwithin

theorem Scanning.goOn (h : Scanning fromKey s expected live stale) (hcome : toCome live' = toCome live)
    (hexpects : ∀ c ∈ live', c.expected = expected) (hloops : ∀ c ∈ live'.tail, c.isLoop = true)
    (hinner : ∀ c ∈ live', ∀ node ∈ c.nodes, node.hash ≠ expected)
    (hknown : ∀ c ∈ live', ∀ node ∈ c.nodes, Known s expected node) :
    Scanning fromKey { s with calls := live' ++ stale } expected live' stale where
  calls := rfl
  expects := hexpects
  loops := hloops
  inner := .inl hinner
  givenUp := h.givenUp
  hash := h.hash
  ascending := hcome ▸ h.ascending
  later := hcome ▸ h.later
  ge := hcome ▸ h.ge
  left := hcome ▸ h.left
  current := hcome ▸ h.current
  known := fun c hc node hnode => ⟨(hknown c hc node hnode).empty, (hknown c hc node hnode).within⟩

/-- What holds in a run. -/
structure Inv (fromKey : String) (s : Scan V) : Prop where
  holds : ∃ m, s.tree.Holds m
  hashed : s.tree.Hashed
  stayed : ∀ key ∈ s.stayed, ∃ e ∈ s.tree.entries, e.key = key
  ge : ∀ y ∈ s.yielded, fromKey ≤ y.1.key
  ascending : s.yielded.Pairwise fun a b => a.1.key < b.1.key
  present : ∀ y ∈ s.yielded, y.1 ∈ y.2.entries
  scanning : ∃ root live stale, Scanning fromKey s root live stale

theorem Scanning.resume_stale (h : Scanning fromKey s expected [] stale) (hclean : s.Clean (.next answer)) :
    ∃ calls, s.resume answer = { s with calls } ∧ Scanning fromKey { s with calls } expected [] calls := by
  have hkeep {stale' : List (ScanCall V)} (hstale : ∀ c ∈ stale', Stale s.tree c) :
      Scanning fromKey { s with calls := stale' } expected [] stale' :=
    ⟨rfl, h.expects, h.loops, .inl (by simp), hstale, h.hash, h.ascending, h.later, h.ge, h.left, h.current,
      by simp⟩
  have hcalls : s.calls = stale := h.calls
  cases stale with
  | nil =>
    have hsame : { s with calls := [] } = s := by rw [← hcalls]
    rw [resume, hcalls]
    exact ⟨[], hsame.symm, hkeep h.givenUp⟩
  | cons c stale =>
    obtain ⟨hc, hstale⟩ := List.forall_mem_cons.mp h.givenUp
    have hne := hc.ne
    rw [resume, hcalls]
    cases c with
    | read root node key =>
      rw [Clean, hcalls] at hclean
      rcases hclean with hroot | ⟨hroot, -⟩
      · exact absurd hroot (hc.gone.ne _ .refl)
      · exact absurd hroot (hne node (by simp [ScanCall.nodes]))
    | children root key entries =>
      cases entries with
      | nil => exact ⟨stale, rfl, hkeep hstale⟩
      | cons e entries =>
        refine ⟨_, rfl, hkeep (List.forall_mem_cons.mpr ⟨⟨hc.gone, ?_, rfl⟩, List.forall_mem_cons.mpr ⟨⟨hc.gone, ?_, rfl⟩, hstale⟩⟩)⟩
        · intro node hnode
          rw [List.mem_singleton.mp hnode]
          exact hne e.value (by simp [ScanCall.nodes])
        · intro node hnode
          exact hne node (List.mem_cons_of_mem _ hnode)
    | entries root entries => exact absurd hc.not_leaf (by simp [ScanCall.isLeaf])

theorem Scanning.returns (h : Scanning fromKey s expected (c :: live) stale) (hnil : c.pending = []) :
    Scanning fromKey { s with calls := live ++ stale } expected live stale := by
  refine h.goOn ?_ (fun c' hc => h.expects c' (List.mem_cons_of_mem _ hc)) (fun c' hc => ?_) ?_
    fun c' hc => h.known c' (List.mem_cons_of_mem _ hc)
  · rw [toCome, toCome, List.flatMap_cons, hnil, List.nil_append]
  · exact h.loops c' (List.mem_of_mem_tail hc)
  · rcases h.inner with hinner | ⟨c', hlive, -⟩
    · exact fun c' hc => hinner c' (List.mem_cons_of_mem _ hc)
    · rw [(List.cons.inj hlive).2]
      simp

theorem Scanning.nextChild {key : String} {e : BTreeEntry (NodeImpl V)} {root : ℕ}
    (h : Scanning fromKey s expected (.children root key (e :: entries) :: live) stale) :
    Scanning fromKey { s with calls := .read root e.value key :: .children root "" entries :: live ++ stale } expected
      (.read root e.value key :: .children root "" entries :: live) stale := by
  have hroot : root = expected := h.expects _ (List.mem_cons_self ..)
  have hknown := h.known _ (List.mem_cons_self ..)
  have hinner := h.inner.resolve_right fun ⟨c, hlive, hrestart⟩ => by
    obtain ⟨node, fk, hcall, -⟩ := hrestart.call
    rw [hcall] at hlive
    cases hlive
  have hne := hinner _ (List.mem_cons_self ..)
  refine h.goOn ?_ ?_ ?_ ?_ ?_
  · change entriesFrom key e.value.entriesIter ++ (childrenFrom "" entries ++ toCome live) =
      (entriesFrom key e.value.entriesIter ++ entries.flatMap fun e => e.value.entriesIter) ++ toCome live
    rw [childrenFrom_empty, List.append_assoc]
  · exact List.forall_mem_cons.mpr ⟨hroot, List.forall_mem_cons.mpr
      ⟨hroot, fun c hc => h.expects c (List.mem_cons_of_mem _ hc)⟩⟩
  · exact List.forall_mem_cons.mpr ⟨rfl, h.loops⟩
  · refine List.forall_mem_cons.mpr ⟨fun node hnode => ?_, List.forall_mem_cons.mpr
      ⟨fun node hnode => hne node (List.mem_cons_of_mem _ hnode), fun c hc => hinner c (List.mem_cons_of_mem _ hc)⟩⟩
    exact hne node (by rw [List.mem_singleton.mp hnode]; exact List.mem_cons_self ..)
  · refine List.forall_mem_cons.mpr ⟨fun node hnode => ?_, List.forall_mem_cons.mpr
      ⟨fun node hnode => hknown node (List.mem_cons_of_mem _ hnode), fun c hc => h.known c (List.mem_cons_of_mem _ hc)⟩⟩
    exact hknown node (by rw [List.mem_singleton.mp hnode]; exact List.mem_cons_self ..)

theorem Holds.sorted_entries {m : String → Option V} (h : t.Holds m) : AscendingKeys t.root.entriesIter :=
  h.sorted.imp fun hlt => compare_lt_iff_lt.mp hlt

theorem Scanning.restart {e : BTreeEntry V} {rest : List (BTreeEntry V)} {root : ℕ} (hi : Inv fromKey s)
    (h : Scanning fromKey s expected (.entries root (e :: rest) :: live) stale) (hne : s.tree.root.hash ≠ expected) :
    Scanning fromKey { s with calls := .read s.tree.root.hash s.tree.root e.key :: (live ++ stale) } s.tree.root.hash
      [.read s.tree.root.hash s.tree.root e.key] (live ++ stale) := by
  obtain ⟨m, hholds⟩ := hi.holds
  have hgone := h.hash.resolve_left hne
  have hinner := h.inner.resolve_right fun ⟨c, hlive, hrestart⟩ => by
    obtain ⟨node, fk, hcall, -⟩ := hrestart.call
    rw [hcall] at hlive
    cases hlive
  have he : e ∈ toCome (.entries root (e :: rest) :: live) := by simp [toCome, ScanCall.pending]
  have hcome : toCome [.read s.tree.root.hash s.tree.root e.key] = entriesFrom e.key s.tree.root.entriesIter :=
    List.flatMap_singleton ..
  exact {
    calls := rfl
    expects := by simp [ScanCall.expected]
    loops := by simp
    inner := .inr ⟨_, rfl, ⟨_, _, rfl, rfl, h.ge e he, fun y hy => h.later y hy e he⟩⟩
    givenUp := by
      refine List.forall_mem_append.mpr ⟨fun c hc => ?_, h.givenUp⟩
      have hexpects := h.expects c (List.mem_cons_of_mem _ hc)
      refine ⟨by rwa [hexpects], fun node hnode => ?_, ?_⟩
      · rw [hexpects]
        exact hinner c (List.mem_cons_of_mem _ hc) node hnode
      · have hloop := h.loops c hc
        cases c with
        | entries => cases hloop
        | _ => rfl
    hash := .inl rfl
    ascending := by
      rw [hcome]
      exact (Holds.sorted_entries hholds).sublist List.filter_sublist
    later := by
      rw [hcome]
      exact fun y hy x hx => (h.later y hy e he).trans_le (mem_entriesFrom.mp hx).2
    ge := by
      rw [hcome]
      exact fun x hx => (h.ge e he).trans (mem_entriesFrom.mp hx).2
    left := by
      rw [hcome]
      refine fun key hkey hfrom => (h.left key hkey hfrom).imp_right fun ⟨x, hx, hxkey⟩ => ?_
      obtain ⟨x', hx', hkey'⟩ := hi.stayed key hkey
      refine ⟨x', mem_entriesFrom.mpr ⟨hx', ?_⟩, hkey'⟩
      -- The entry in hand is the first of what was to come.
      have hfirst : e.key ≤ x.key := by
        have hascending := h.ascending
        simp only [toCome, List.flatMap_cons, ScanCall.pending, List.cons_append] at hx hascending
        rcases List.mem_cons.mp hx with rfl | hx
        · exact le_rfl
        · exact ((List.pairwise_cons.mp hascending).1 x hx).le
      rw [hkey', ← hxkey]
      exact hfirst
    current := by
      rw [hcome]
      exact fun _ x hx => (mem_entriesFrom.mp hx).1
    known := by
      intro c hc node hnode
      rw [List.mem_singleton.mp hc] at hnode
      rw [List.mem_singleton.mp hnode]
      exact ⟨hi.hashed.empty _ .refl, fun _ => .refl⟩ }

theorem Scanning.yields {e : BTreeEntry V} {rest : List (BTreeEntry V)} {root : ℕ}
    (h : Scanning fromKey s expected (.entries root (e :: rest) :: live) stale) (hroot : s.tree.root.hash = expected) :
    Scanning fromKey { s with calls := .entries root rest :: live ++ stale, yielded := s.yielded ++ [(e, s.tree)] } expected
      (.entries root rest :: live) stale ∧ fromKey ≤ e.key ∧ (∀ y ∈ s.yielded, y.1.key < e.key) ∧ e ∈ s.tree.entries := by
  have hinner := h.inner.resolve_right fun ⟨c, hlive, hrestart⟩ => by
    obtain ⟨node, fk, hcall, -⟩ := hrestart.call
    rw [hcall] at hlive
    cases hlive
  have hcome : toCome (.entries root (e :: rest) :: live) = e :: toCome (.entries root rest :: live) := rfl
  have hascending := h.ascending
  have hlater := h.later
  have hge := h.ge
  have hcurrent := h.current hroot
  rw [hcome] at hascending hlater hge hcurrent
  obtain ⟨hfirst, hrest⟩ := List.pairwise_cons.mp hascending
  refine ⟨{
    calls := rfl
    expects := List.forall_mem_cons.mpr (List.forall_mem_cons.mp h.expects)
    loops := h.loops
    inner := .inl (List.forall_mem_cons.mpr (List.forall_mem_cons.mp hinner))
    givenUp := h.givenUp
    hash := h.hash
    ascending := hrest
    later := ?_
    ge := fun x hx => hge x (List.mem_cons_of_mem _ hx)
    left := ?_
    current := fun _ x hx => hcurrent x (List.mem_cons_of_mem _ hx)
    known := ?_ },
    hge e (List.mem_cons_self ..), fun y hy => hlater y hy e (List.mem_cons_self ..), hcurrent e (List.mem_cons_self ..)⟩
  · intro y hy x hx
    rcases List.mem_append.mp hy with hy | hy
    · exact hlater y hy x (List.mem_cons_of_mem _ hx)
    · rw [List.mem_singleton.mp hy]
      exact hfirst x hx
  · intro key hkey hfrom
    rcases h.left key hkey hfrom with ⟨y, hy, hykey⟩ | ⟨x, hx, hxkey⟩
    · exact .inl ⟨y, List.mem_append_left _ hy, hykey⟩
    · rw [hcome] at hx
      rcases List.mem_cons.mp hx with rfl | hx
      · exact .inl ⟨(x, s.tree), List.mem_append_right _ (List.mem_singleton_self _), hxkey⟩
      · exact .inr ⟨x, hx, hxkey⟩
  · have hknown : ∀ c ∈ .entries root rest :: live, ∀ node ∈ c.nodes, Known s expected node :=
      List.forall_mem_cons.mpr (List.forall_mem_cons.mp h.known)
    exact fun c hc node hnode => ⟨(hknown c hc node hnode).empty, (hknown c hc node hnode).within⟩

theorem Scanning.read {node : NodeImpl V} {key : String} {root : ℕ} (hi : Inv fromKey s)
    (h : Scanning fromKey s expected (.read root node key :: live) stale) (hroot : s.tree.root.hash = expected)
    (hexpected : c.expected = root) (hcome : c.pending = entriesFrom key node.entriesIter)
    (hnodes : ∀ child ∈ c.nodes, Below node child) :
    Scanning fromKey { s with calls := c :: live ++ stale } expected (c :: live) stale := by
  obtain ⟨hexpects, hrest⟩ := List.forall_mem_cons.mp h.expects
  obtain ⟨hnode, hknown⟩ := List.forall_mem_cons.mp h.known
  have hwithin : Within s.tree.root node := (hnode node (List.mem_singleton_self _)).within hroot
  have hbelow {child : NodeImpl V} (hc : child ∈ c.nodes) : Below s.tree.root child :=
    Relation.TransGen.trans_right hwithin (hnodes child hc)
  refine h.goOn ?_ (List.forall_mem_cons.mpr ⟨hexpected.trans hexpects, hrest⟩) h.loops ?_ ?_
  · rw [toCome, toCome, List.flatMap_cons, List.flatMap_cons, hcome]
    rfl
  · refine List.forall_mem_cons.mpr ⟨fun child hc heq => ?_, ?_⟩
    · have hself := (hbelow hc).sizeOf_lt
      rw [hi.hashed.unique child _ (hbelow hc).to_reflTransGen .refl (heq.trans hroot.symm)] at hself
      exact lt_irrefl _ hself
    · rcases h.inner with hinner | ⟨c', hlive, -⟩
      · exact fun c' hc => hinner c' (List.mem_cons_of_mem _ hc)
      · rw [(List.cons.inj hlive).2]
        simp
  · exact List.forall_mem_cons.mpr ⟨fun child hc =>
      ⟨hi.hashed.empty child (hbelow hc).to_reflTransGen, fun _ => (hbelow hc).to_reflTransGen⟩, hknown⟩

theorem Scanning.readLeaf {node : NodeImpl V} {key : String} {root hash : ℕ} {modified : Bool} {L : List (BTreeEntry V)}
    (h : Scanning fromKey s expected (.read root node key :: live) stale) (hne : s.tree.root.hash ≠ expected)
    (hhash : node.hash = expected) (hleft : LeftAs s.stayed node (.data hash modified L)) :
    Scanning fromKey { s with calls := .entries root (entriesFrom key L) :: live ++ stale } expected
      (.entries root (entriesFrom key L) :: live) stale := by
  obtain ⟨c, hlive, hrestart⟩ := h.inner.resolve_left fun hinner =>
    hinner _ (List.mem_cons_self ..) node (List.mem_singleton_self _) hhash
  obtain ⟨hc, rfl⟩ := List.cons.inj hlive
  obtain ⟨node', key', hcall, -, hfrom, hyielded⟩ := hrestart.call
  rw [← hc] at hcall
  cases hcall
  have hcome : toCome [.entries expected (entriesFrom key L)] = entriesFrom key L := List.flatMap_singleton ..
  have hsorted := hleft.sorted
  have hkeys := hleft.keys
  rw [entriesIter_data] at hsorted hkeys
  exact {
    calls := rfl
    expects := by simp [ScanCall.expected]
    loops := by simp
    inner := .inl (by simp [ScanCall.nodes])
    givenUp := h.givenUp
    hash := h.hash
    ascending := by
      rw [hcome]
      exact (hsorted.imp fun hlt => compare_lt_iff_lt.mp hlt).sublist List.filter_sublist
    later := by
      rw [hcome]
      exact fun y hy x hx => (hyielded y hy).trans_le (mem_entriesFrom.mp hx).2
    ge := by
      rw [hcome]
      exact fun x hx => hfrom.trans (mem_entriesFrom.mp hx).2
    left := by
      rw [hcome]
      refine fun k hk hle => (h.left k hk hle).imp_right fun ⟨x, hx, hxkey⟩ => ?_
      rw [toCome, List.flatMap_singleton, ScanCall.pending] at hx
      obtain ⟨hx, hxfrom⟩ := mem_entriesFrom.mp hx
      obtain ⟨x', hx', hkey'⟩ := hkeys x hx (hxkey ▸ hk)
      exact ⟨x', mem_entriesFrom.mpr ⟨hx', hkey'.symm ▸ hxfrom⟩, hkey'.trans hxkey⟩
    current := fun hroot => absurd hroot hne
    known := by simp [ScanCall.nodes] }

theorem Inv.withCalls (hi : Inv fromKey s) {calls : List (ScanCall V)}
    (h : ∃ root live stale, Scanning fromKey { s with calls } root live stale) : Inv fromKey { s with calls } :=
  ⟨hi.holds, hi.hashed, hi.stayed, hi.ge, hi.ascending, hi.present, h⟩

theorem Inv.resume_read {node : NodeImpl V} {key : String} {root : ℕ} (hi : Inv fromKey s)
    (h : Scanning fromKey s expected (.read root node key :: live) stale) (hpossible : s.Possible (.next answer))
    (hclean : s.Clean (.next answer)) : Inv fromKey (s.resume answer) := by
  have hcalls := h.calls
  obtain ⟨m, hholds⟩ := hi.holds
  have hexpects : root = expected := h.expects _ (List.mem_cons_self ..)
  have hnode := h.known _ (List.mem_cons_self ..) node (List.mem_singleton_self _)
  rw [Possible, hcalls] at hpossible
  rw [Clean, hcalls] at hclean
  rw [resume, hcalls]
  dsimp only [List.cons_append] at hpossible hclean ⊢
  split
  · next hempty =>
    have hnil : (ScanCall.read root node key).pending = [] := by
      rw [ScanCall.pending, hnode.empty hempty]
      rfl
    exact hi.withCalls ⟨_, _, _, h.returns hnil⟩
  · by_cases hroot : s.tree.root.hash = expected
    · have hwithin := hnode.within hroot
      obtain rfl : answer = node := hpossible.1 node hwithin rfl
      obtain ⟨n, hv⟩ := hholds.level
      obtain ⟨k, hv⟩ := hwithin.valid hv
      have hs : Sorted byKey answer.entriesIter := List.Pairwise.sublist hwithin.sublist hholds.sorted
      cases hv with
      | @data hash modified L =>
        rw [entriesIter_data] at hs
        refine hi.withCalls ⟨_, _, _, h.read hi hroot rfl ?_ (by simp [ScanCall.nodes])⟩
        rw [ScanCall.pending, drop_startIndex hs, entriesIter_data]
      | @internal hash modified k entries hhash hne hsize hchild hkey =>
        rw [entriesIter_internal] at hs
        refine hi.withCalls ⟨_, _, _, h.read hi hroot rfl ?_ fun child hc => ?_⟩
        · rw [ScanCall.pending, childrenFrom_startIndex ⟨hsize, hchild, hkey⟩ hs, entriesIter_internal]
        · obtain ⟨e, he, rfl⟩ := List.mem_map.mp hc
          exact .single (child_internal.mpr ⟨e, List.mem_of_mem_drop he, rfl⟩)
    · obtain ⟨hhash, hlevel⟩ := hclean.resolve_left (hexpects ▸ hroot)
      have hgone := h.hash.resolve_left hroot
      have hleft := hpossible.2 (by rw [hhash, hexpects]; exact hgone.ne) hlevel
      obtain ⟨hash, modified, L, rfl⟩ := hleft.leaf
      have hs : Sorted byKey L := by
        have hs := hleft.sorted
        rwa [entriesIter_data] at hs
      have hread := h.readLeaf hroot (hhash.trans hexpects) hleft
      rw [← drop_startIndex hs] at hread
      exact hi.withCalls ⟨_, _, _, hread⟩

/-- **A step of the scan** keeps what holds. -/
theorem Inv.resume (hi : Inv fromKey s) (hpossible : s.Possible (.next answer)) (hclean : s.Clean (.next answer)) :
    Inv fromKey (s.resume answer) := by
  obtain ⟨root, live, stale, h⟩ := hi.scanning
  have hcalls := h.calls
  cases live with
  | nil =>
    obtain ⟨calls, hresume, h'⟩ := h.resume_stale hclean
    rw [hresume]
    exact hi.withCalls ⟨_, _, _, h'⟩
  | cons c live =>
    cases c with
    | read expected node key => exact hi.resume_read h hpossible hclean
    | children expected key entries =>
      rw [Scan.resume, hcalls]
      cases entries with
      | nil => exact hi.withCalls ⟨_, _, _, h.returns rfl⟩
      | cons e entries => exact hi.withCalls ⟨_, _, _, h.nextChild⟩
    | entries expected entries =>
      have hexpects : expected = root := h.expects _ (List.mem_cons_self ..)
      rw [Scan.resume, hcalls]
      cases entries with
      | nil => exact hi.withCalls ⟨_, _, _, h.returns rfl⟩
      | cons e entries =>
        dsimp only [List.cons_append]
        split
        · next hne => exact hi.withCalls ⟨_, _, _, h.restart hi (hexpects ▸ Ne.symm hne)⟩
        · next heq =>
          obtain ⟨hyields, hfrom, hlater, hmem⟩ := h.yields (hexpects ▸ (not_not.mp heq).symm)
          refine ⟨hi.holds, hi.hashed, hi.stayed, ?_, ?_, ?_, ⟨_, _, _, hyields⟩⟩
          · exact List.forall_mem_append.mpr ⟨hi.ge, List.forall_mem_singleton.mpr hfrom⟩
          · exact List.pairwise_append.mpr ⟨hi.ascending, List.pairwise_singleton _ _, fun y hy y' hy' => by
              rw [List.mem_singleton.mp hy']
              exact hlater y hy⟩
          · exact List.forall_mem_append.mpr ⟨hi.present, List.forall_mem_singleton.mpr hmem⟩

theorem Inv.change (hi : Inv fromKey s) {m : String → Option V} (hholds : t.Holds m)
    (h : Replaced s.tree t ∨ t.root = s.tree.root ∧ s.tree.nextHash ≤ t.nextHash) : Inv fromKey (s.change t) := by
  obtain ⟨root, live, stale, hscanning⟩ := hi.scanning
  have hkeep (hhashed : t.Hashed) (hs : Scanning fromKey (s.change t) root live stale) : Inv fromKey (s.change t) :=
    ⟨⟨m, hholds⟩, hhashed, fun key hkey => (mem_change_stayed.mp hkey).2, hi.ge, hi.ascending, hi.present, ⟨_, _, _, hs⟩⟩
  rcases h with hr | ⟨hroot, hle⟩
  · exact hkeep hr.hashed (hscanning.replaced hr)
  · refine hkeep ⟨fun a ha => ?_, ?_, ?_⟩ (hscanning.kept hroot hle)
    · rw [hroot] at ha
      exact (hi.hashed.lt a ha).trans_le hle
    · rw [hroot]
      exact hi.hashed.unique
    · rw [hroot]
      exact hi.hashed.empty

theorem Inv.run {e : ScanEvent V} (hi : Inv fromKey s) (hpossible : s.Possible e) (hclean : s.Clean e)
    (hrun : s.run tree e = some s') : Inv fromKey s' := by
  obtain ⟨m, hholds⟩ := hi.holds
  cases e with
  | put key value =>
    obtain ⟨t, hput, ht⟩ := hholds.put tree key value
    rw [Scan.run, hput] at hrun
    cases hrun
    exact hi.change ht (.inl (hi.hashed.put hput))
  | del key =>
    obtain ⟨t, hdel, ht⟩ := hholds.del hclean tree
    rw [Scan.run, hdel] at hrun
    cases hrun
    exact hi.change ht (hi.hashed.del hdel)
  | next answer =>
    cases hrun
    exact hi.resume hpossible hclean

theorem inv_start {m : String → Option V} (hholds : t.Holds m) (hhashed : t.Hashed) (fromKey : String) :
    Inv fromKey (start fromKey t) := by
  have hcome : toCome [.read t.root.hash t.root fromKey] = entriesFrom fromKey t.root.entriesIter :=
    List.flatMap_singleton ..
  refine ⟨⟨m, hholds⟩, hhashed, fun key hkey => List.mem_map.mp hkey, by simp [start], by simp [start], by simp [start],
    t.root.hash, [.read t.root.hash t.root fromKey], [], ?_⟩
  exact {
    calls := rfl
    expects := by simp [ScanCall.expected]
    loops := by simp
    inner := .inr ⟨_, rfl, ⟨_, _, rfl, rfl, le_rfl, by simp [start]⟩⟩
    givenUp := by simp
    hash := .inl rfl
    ascending := by
      rw [hcome]
      exact (Holds.sorted_entries hholds).sublist List.filter_sublist
    later := by simp [start]
    ge := by
      rw [hcome]
      exact fun x hx => (mem_entriesFrom.mp hx).2
    left := by
      rw [hcome]
      intro key hkey hfrom
      obtain ⟨x, hx, rfl⟩ := List.mem_map.mp hkey
      exact .inr ⟨x, mem_entriesFrom.mpr ⟨hx, hfrom⟩, rfl⟩
    current := by
      rw [hcome]
      exact fun _ x hx => (mem_entriesFrom.mp hx).1
    known := by
      intro c hc node hnode
      rw [List.mem_singleton.mp hc] at hnode
      rw [List.mem_singleton.mp hnode]
      exact ⟨hhashed.empty _ .refl, fun _ => .refl⟩ }

theorem Inv.scanned (hi : Inv fromKey s) : Scanned fromKey s := by
  refine ⟨hi.ge, hi.ascending, hi.present, fun hcalls key hkey hfrom => ?_⟩
  obtain ⟨root, live, stale, h⟩ := hi.scanning
  obtain ⟨rfl, rfl⟩ := List.append_eq_nil_iff.mp (h.calls.symm.trans hcalls)
  exact (h.left key hkey hfrom).resolve_right (by simp)

theorem holds_valueAt (hv : Valid t.nextHash n t.root) (hs : AscendingKeys t.entries) : t.Holds (valueAt t.entries) where
  level := ⟨n, hv⟩
  sorted := hs.imp fun hlt => compare_lt_iff_lt.mpr hlt
  mem key value := by
    constructor
    · rintro ⟨x, hx, rfl, rfl⟩
      exact hs.valueAt_of_mem hx
    · intro h
      obtain ⟨x, hx, rfl⟩ := Option.map_eq_some_iff.mp h
      exact ⟨x, List.mem_of_find?_eq_some hx, by simpa using List.find?_some hx, rfl⟩

/-- **A scan keeps its promises** in every run in which it never reads an old child. -/
theorem cleanRun_scanned (hv : Valid t.nextHash n t.root) (hs : AscendingKeys t.entries) (hhashed : t.Hashed)
    (tree : BTreeSizes V) (h : ScanRun tree Clean (start fromKey t) s) : Scanned fromKey s := by
  have hi : Inv fromKey s := by
    induction h with
    | start => exact inv_start (holds_valueAt hv hs) hhashed fromKey
    | event _ hpossible hclean hrun ih => exact ih.run hpossible hclean hrun
  exact hi.scanned

/-! ## Runs -/

theorem possible_of_within {node : NodeImpl V} {key : String} {root : ℕ} {calls : List (ScanCall V)} (hhashed : s.tree.Hashed)
    (hcalls : s.calls = .read root node key :: calls) (hwithin : Within s.tree.root node) : s.Possible (.next node) := by
  rw [Possible, hcalls]
  exact ⟨fun a ha heq => hhashed.unique node a hwithin ha heq.symm, fun hne => absurd rfl (hne node hwithin)⟩

end Scan

theorem ScanRun.resume {allowed : Scan V → ScanEvent V → Prop} {tree : BTreeSizes V} {s₀ s s' : Scan V}
    (h : ScanRun tree allowed s₀ s) (answer : NodeImpl V) (hpossible : s.Possible (.next answer)) (hallowed : allowed s (.next answer))
    (hresume : s.resume answer = s') : ScanRun tree allowed s₀ s' :=
  h.event hpossible hallowed (congrArg some hresume)

/-- Room for everything in one node. -/
def roomy : BTreeSizes ℕ where
  minSize := 0
  maxSize := 100
  chunkHeaderSize := 1
  getEntrySize _ _ := 1
  getHashSize _ _ := 1
  getEntrySize_pos _ _ := one_pos
  getHashSize_pos _ _ := one_pos

/-- A leaf with one entry, and a tree of it. -/
def single (hash : ℕ) (key : String) : NodeImpl ℕ := .data hash false [⟨key, hash, 1⟩]

def treeB (next : ℕ) : BTreeWrite ℕ := ⟨single 2 "b", next⟩

/-- Two leaves under the root. -/
def treeAB : BTreeWrite ℕ := ⟨.internal 3 false 1 [⟨"a", single 1 "a", 1⟩, ⟨"b", single 2 "b", 1⟩], 4⟩

theorem hashed_treeB {next : ℕ} (h : 2 < next) : (treeB next).Hashed := by
  refine ⟨fun a ha => ?_, fun a b ha hb _ => ?_, fun a ha heq => ?_⟩
  · rw [within_data.mp ha]
    exact h
  · rw [within_data.mp ha, within_data.mp hb]
  · rw [within_data.mp ha] at heq
    cases heq

theorem within_treeAB {a : NodeImpl ℕ} : Within treeAB.root a ↔ a = treeAB.root ∨ a = single 1 "a" ∨ a = single 2 "b" := by
  rw [treeAB, within_internal]
  simp only [single, List.mem_cons, List.not_mem_nil, or_false, exists_eq_or_imp, exists_eq_left, within_data]

theorem hashed_treeAB : treeAB.Hashed := by
  refine ⟨fun a ha => ?_, fun a b ha hb heq => ?_, fun a ha heq => ?_⟩
  · rcases within_treeAB.mp ha with rfl | rfl | rfl <;> decide
  · rcases within_treeAB.mp ha with rfl | rfl | rfl <;> rcases within_treeAB.mp hb with rfl | rfl | rfl <;>
      first | rfl | cases heq
  · rcases within_treeAB.mp ha with rfl | rfl | rfl <;> cases heq

theorem del_treeAB : treeAB.del roomy "a" = some (treeB 6, true) := by
  have hi : binarySearch "a" [⟨"a", NodeImpl.data 1 false [⟨"a", 1, 1⟩], 1⟩, ⟨"b", .data 2 false [⟨"b", (2 : ℕ), 1⟩], 1⟩] = 0 := by
    decide +kernel
  have hj : binarySearch "a" [(⟨"a", 1, 1⟩ : BTreeEntry ℕ)] = 0 := by decide +kernel
  norm_num [BTreeWrite.del, treeAB, treeB, single, NodeImpl.del, hi, hj, binarySearchFound, newDataNodeImpl, newInternalNodeImpl,
    readonlySplice, NodeImpl.hash, NodeImpl.length, BTreeWrite.flatten]

theorem startIndex_empty {α : Type} (entries : List (BTreeEntry α)) : startIndex "" entries = 0 := if_pos rfl

theorem startIndex_b {key : String} (h : key = "a" ∨ key = "b") : startIndex key [(⟨"b", 2, 1⟩ : BTreeEntry ℕ)] = 0 := by
  rcases h with rfl | rfl <;> decide +kernel

open Scan

/-- The tree of "b" with "c". -/
def treeBC : BTreeWrite ℕ := ⟨.data 3 true [⟨"b", 2, 1⟩, ⟨"c", 3, 1⟩], 4⟩

theorem put_treeB : (treeB 3).put roomy "c" 3 = some treeBC := by
  have hj : binarySearch "c" [(⟨"b", 2, 1⟩ : BTreeEntry ℕ)] = 1 := by decide +kernel
  norm_num [BTreeWrite.put, treeB, treeBC, single, NodeImpl.set, hj, binarySearchFound, newDataNodeImpl, readonlySplice,
    getChildNodeSize, roomy]

/-- The leaf is changed after the scan has read it. -/
theorem cleanRun_scanned_put : ∃ s, ScanRun roomy Clean (start "" (treeB 3)) s ∧ s.yielded.map (·.1.key) = ["b", "c"] ∧
    Scanned "" s := by
  have hhashed : (treeB 3).Hashed := hashed_treeB (by decide)
  have h₀ : ScanRun roomy Clean (start "" (treeB 3)) ⟨treeB 3, [.read 2 (single 2 "b") ""], [], ["b"]⟩ := by
    have hstart : start "" (treeB 3) = ⟨treeB 3, [.read 2 (single 2 "b") ""], [], ["b"]⟩ := by
      simp [start, treeB, BTreeWrite.entries, single, NodeImpl.hash]
    rw [← hstart]
    exact .start
  have h₁ : ScanRun roomy Clean (start "" (treeB 3)) ⟨treeB 3, [.entries 2 [⟨"b", 2, 1⟩]], [], ["b"]⟩ :=
    h₀.resume _ (possible_of_within hhashed rfl .refl) (.inl rfl)
      (by simp [Scan.resume, single, NodeImpl.hash, BTreeWrite.emptyHash, startIndex_empty])
  have h₂ : ScanRun roomy Clean (start "" (treeB 3)) ⟨treeBC, [.entries 2 [⟨"b", 2, 1⟩]], [], ["b"]⟩ :=
    h₁.event (e := .put "c" 3) trivial trivial
      (by rw [Scan.run, put_treeB]; simp [change, treeBC, BTreeWrite.entries])
  have h₃ : ScanRun roomy Clean (start "" (treeB 3)) ⟨treeBC, [.read 3 treeBC.root "b"], [], ["b"]⟩ :=
    h₂.resume (single 2 "b") trivial trivial rfl
  have hb : startIndex "b" [(⟨"b", 2, 1⟩ : BTreeEntry ℕ), ⟨"c", 3, 1⟩] = 0 := by decide +kernel
  have h₄ : ScanRun roomy Clean (start "" (treeB 3)) ⟨treeBC, [.entries 3 [⟨"b", 2, 1⟩, ⟨"c", 3, 1⟩]], [], ["b"]⟩ :=
    h₃.resume _ (possible_of_within (hhashed.put put_treeB).hashed rfl .refl) (.inl rfl)
      (by simp [Scan.resume, treeBC, NodeImpl.hash, BTreeWrite.emptyHash, hb])
  have h₅ := h₄.resume (single 2 "b") trivial trivial rfl
  have h₆ := h₅.resume (single 2 "b") trivial trivial rfl
  have hentries : (treeB 3).entries = [⟨"b", 2, 1⟩] := by simp [BTreeWrite.entries, treeB, single]
  refine ⟨_, h₆, rfl, cleanRun_scanned (n := 0) (.data (by decide) (by simp)) ?_ hhashed roomy h₆⟩
  rw [hentries]
  exact List.pairwise_singleton _ _

theorem valid_treeAB : Valid treeAB.nextHash 1 treeAB.root := by
  have hleaf {hash : ℕ} (h : hash < 4) (key : String) : Valid 4 0 (single hash key) := .data h (by simp)
  refine .internal (Nat.lt_succ_self 3) (by simp) (by simp) ?_ (by simp [Blocks.Named, single])
  simpa using ⟨hleaf (by decide) _, hleaf (by decide) _⟩

theorem ascending_treeAB : AscendingKeys treeAB.entries := by
  have hentries : treeAB.entries = [⟨"a", 1, 1⟩, ⟨"b", 2, 1⟩] := by simp [BTreeWrite.entries, treeAB, single]
  have hlt : "a" < "b" := by decide +kernel
  rw [hentries]
  exact List.pairwise_cons.mpr ⟨fun x hx => by rw [List.mem_singleton.mp hx]; exact hlt, List.pairwise_singleton _ _⟩

/-- Any event. -/
def anyEvent (_ : Scan ℕ) (_ : ScanEvent ℕ) : Prop := True

/-- The first leaf is taken away while the scan is in it. -/
theorem scan_yields_twice : Valid treeAB.nextHash 1 treeAB.root ∧ AscendingKeys treeAB.entries ∧ treeAB.Hashed ∧
    ∃ s, ScanRun roomy anyEvent (start "" treeAB) s ∧ ¬ Scanned "" s := by
  refine ⟨valid_treeAB, ascending_treeAB, hashed_treeAB, ?_⟩
  have hin (root : ℕ) {node : NodeImpl ℕ} (hw : Within treeAB.root node) (calls : List (ScanCall ℕ)) :
      Possible ⟨treeAB, .read root node "" :: calls, [], ["a", "b"]⟩ (.next node) :=
    possible_of_within hashed_treeAB rfl hw
  have hout (root : ℕ) (key : String) (calls : List (ScanCall ℕ)) (yielded : List (BTreeEntry ℕ × BTreeWrite ℕ)) :
      Possible ⟨treeB 6, .read root (single 2 "b") key :: calls, yielded, ["b"]⟩ (.next (single 2 "b")) :=
    possible_of_within (hashed_treeB (by decide)) rfl .refl
  let b : BTreeEntry (NodeImpl ℕ) := ⟨"b", single 2 "b", 1⟩
  let y : BTreeEntry ℕ × BTreeWrite ℕ := (⟨"b", 2, 1⟩, treeB 6)
  have h₀ : ScanRun roomy anyEvent (start "" treeAB) ⟨treeAB, [.read 3 treeAB.root ""], [], ["a", "b"]⟩ := by
    have hstart : start "" treeAB = ⟨treeAB, [.read 3 treeAB.root ""], [], ["a", "b"]⟩ := by
      simp [start, treeAB, BTreeWrite.entries, single, NodeImpl.hash]
    rw [← hstart]
    exact .start
  have h₁ : ScanRun roomy anyEvent (start "" treeAB)
      ⟨treeAB, [.children 3 "" [⟨"a", single 1 "a", 1⟩, b]], [], ["a", "b"]⟩ :=
    h₀.resume _ (hin 3 .refl _) trivial (by simp [Scan.resume, treeAB, NodeImpl.hash, BTreeWrite.emptyHash, startIndex_empty, b])
  have h₂ : ScanRun roomy anyEvent (start "" treeAB)
      ⟨treeAB, [.read 3 (single 1 "a") "", .children 3 "" [b]], [], ["a", "b"]⟩ :=
    h₁.resume (single 1 "a") trivial trivial rfl
  have h₃ : ScanRun roomy anyEvent (start "" treeAB)
      ⟨treeAB, [.entries 3 [⟨"a", 1, 1⟩], .children 3 "" [b]], [], ["a", "b"]⟩ :=
    h₂.resume _ (hin 3 (within_treeAB.mpr (.inr (.inl rfl))) _) trivial
      (by simp [Scan.resume, single, NodeImpl.hash, BTreeWrite.emptyHash, startIndex_empty])
  have h₄ : ScanRun roomy anyEvent (start "" treeAB)
      ⟨treeB 6, [.entries 3 [⟨"a", 1, 1⟩], .children 3 "" [b]], [], ["b"]⟩ :=
    h₃.event (e := .del "a") trivial trivial
      (by rw [Scan.run, del_treeAB]; simp [change, treeB, BTreeWrite.entries, single])
  have h₅ : ScanRun roomy anyEvent (start "" treeAB)
      ⟨treeB 6, [.read 2 (single 2 "b") "a", .children 3 "" [b]], [], ["b"]⟩ :=
    h₄.resume (single 2 "b") trivial trivial rfl
  have h₆ : ScanRun roomy anyEvent (start "" treeAB)
      ⟨treeB 6, [.entries 2 [⟨"b", 2, 1⟩], .children 3 "" [b]], [], ["b"]⟩ :=
    h₅.resume _ (hout 2 _ _ _) trivial
      (by simp [Scan.resume, single, NodeImpl.hash, BTreeWrite.emptyHash, startIndex_b])
  have h₇ : ScanRun roomy anyEvent (start "" treeAB) ⟨treeB 6, [.entries 2 [], .children 3 "" [b]], [y], ["b"]⟩ :=
    h₆.resume (single 2 "b") trivial trivial rfl
  have h₈ : ScanRun roomy anyEvent (start "" treeAB) ⟨treeB 6, [.children 3 "" [b]], [y], ["b"]⟩ :=
    h₇.resume (single 2 "b") trivial trivial rfl
  -- The loop of the old root goes on to the leaf that was just scanned.
  have h₉ : ScanRun roomy anyEvent (start "" treeAB)
      ⟨treeB 6, [.read 3 (single 2 "b") "", .children 3 "" []], [y], ["b"]⟩ :=
    h₈.resume (single 2 "b") trivial trivial rfl
  have h₁₀ : ScanRun roomy anyEvent (start "" treeAB)
      ⟨treeB 6, [.entries 3 [⟨"b", 2, 1⟩], .children 3 "" []], [y], ["b"]⟩ :=
    h₉.resume _ (hout 3 _ _ _) trivial
      (by simp [Scan.resume, single, NodeImpl.hash, BTreeWrite.emptyHash, startIndex_empty])
  have h₁₁ : ScanRun roomy anyEvent (start "" treeAB)
      ⟨treeB 6, [.read 2 (single 2 "b") "b", .children 3 "" []], [y], ["b"]⟩ :=
    h₁₀.resume (single 2 "b") trivial trivial rfl
  have h₁₂ : ScanRun roomy anyEvent (start "" treeAB)
      ⟨treeB 6, [.entries 2 [⟨"b", 2, 1⟩], .children 3 "" []], [y], ["b"]⟩ :=
    h₁₁.resume _ (hout 2 _ _ _) trivial
      (by simp [Scan.resume, single, NodeImpl.hash, BTreeWrite.emptyHash, startIndex_b])
  refine ⟨_, h₁₂.resume (single 2 "b") trivial trivial rfl, fun hscanned => ?_⟩
  exact lt_irrefl _ ((List.pairwise_cons.mp hscanned.ascending).1 y (List.mem_singleton_self _))

end ZeroSync
