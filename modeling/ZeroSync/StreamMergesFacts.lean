/-
The merges of streams with markers.

`mergeSortedStreams` yields an interleaving of its streams, markers and all
(`mergeSortedStreams_interleaves`). With the markers left out of the streams
and of what is yielded, each merge is the merge of lists that `Heap` and
`Merge` have (`nodes_mergeSortedStreams`, `nodes_mergeFetches`), so the
markers change neither the nodes nor their order.
-/
import ZeroSync.Interleaves
import ZeroSync.StreamMerges
import ZeroSync.UnionFanIn

namespace ZeroSync

open NodeStream

/-! ## Reading an iterator up to its next node -/

theorem pull_cases (iterator : NodeStream) :
    ((pull iterator).node = none ∧ iterator = (pull iterator).forwarded) ∨
      ∃ n, (pull iterator).node = some n ∧ iterator = (pull iterator).forwarded ++ .node n :: (pull iterator).rest := by
  induction iterator with
  | nil => exact .inl ⟨rfl, rfl⟩
  | cons item rest ih =>
    cases item with
    | yield =>
      rcases ih with ⟨hnode, heq⟩ | ⟨n, hnode, heq⟩
      · exact .inl ⟨hnode, congrArg (StreamItem.yield :: ·) heq⟩
      · exact .inr ⟨n, hnode, congrArg (StreamItem.yield :: ·) heq⟩
    | node n => exact .inr ⟨n, rfl, rfl⟩

@[simp] theorem nodes_forwarded (iterator : NodeStream) : nodes (pull iterator).forwarded = [] := by
  induction iterator with
  | nil => rfl
  | cons item rest ih =>
    cases item with
    | yield => exact ih
    | node n => rfl

theorem nodes_pull (iterator : NodeStream) :
    nodes iterator = (pull iterator).node.toList ++ nodes (pull iterator).rest := by
  rcases pull_cases iterator with ⟨hnode, heq⟩ | ⟨n, hnode, heq⟩
  · rw [hnode, pull_ended hnode, heq, nodes_forwarded]
    rfl
  · rw [hnode]
    conv_lhs => rw [heq]
    simp

theorem yields_pull (iterator : NodeStream) :
    yields iterator = yields (pull iterator).forwarded + yields (pull iterator).rest := by
  rcases pull_cases iterator with ⟨hnode, heq⟩ | ⟨n, -, heq⟩
  · rw [pull_ended hnode, ← heq]
    rfl
  · conv_lhs => rw [heq]
    simp

/-- What is left of a stream whose next node is pulled and not yet yielded. -/
def Pulled.left (p : Pulled) : List NodeStream := p.node.toList.map fun n => .node n :: p.rest

theorem interleaves_pull {iterator : NodeStream} {streams : List NodeStream} {out : NodeStream}
    (h : Interleaves ((pull iterator).left ++ streams) out) :
    Interleaves (iterator :: streams) ((pull iterator).forwarded ++ out) := by
  rcases pull_cases iterator with ⟨hnode, heq⟩ | ⟨n, hnode, heq⟩
  · rw [Pulled.left, hnode] at h
    conv in iterator :: streams => rw [heq]
    exact h.exhaust _
  · rw [Pulled.left, hnode] at h
    conv in iterator :: streams => rw [heq]
    exact Interleaves.append _ h

theorem yields_perm {s s' : NodeStream} (h : s.Perm s') : yields s = yields s' := by
  induction h with
  | nil => rfl
  | cons item _ ih => cases item <;> simp [ih]
  | swap item item' s => cases item <;> cases item' <;> rfl
  | trans _ _ ih ih' => exact ih.trans ih'

theorem yields_flatten (streams : List NodeStream) : yields streams.flatten = (streams.map yields).sum := by
  induction streams with
  | nil => rfl
  | cons s streams ih => simp [ih]

/-- How many nodes are left in streams. -/
def nodesLeft (streams : List NodeStream) : ℕ := (streams.map fun s => (nodes s).length).sum

theorem nodesLeft_cons (s : NodeStream) (streams : List NodeStream) :
    nodesLeft (s :: streams) = (nodes s).length + nodesLeft streams := List.sum_cons

theorem nodesLeft_perm {streams streams' : List NodeStream} (h : streams.Perm streams') :
    nodesLeft streams = nodesLeft streams' := (h.map _).sum_eq

theorem nodesLeft_pull (iterator : NodeStream) (streams : List NodeStream) :
    nodesLeft ((pull iterator).left ++ streams) = (nodes iterator).length + nodesLeft streams := by
  rw [nodes_pull iterator, Pulled.left]
  cases hnode : (pull iterator).node with
  | none => simp [pull_ended hnode]
  | some n => simp [nodesLeft_cons]

namespace Marked

/-! ## What is left of a merge of sorted streams -/

section
variable {k : ℕ} (compare : Node → Node → Ordering)

/-- What is left of the stream of an entry. -/
def Entry.left (iterators : Vector NodeStream k) (e : Entry k) : NodeStream := .node e.row :: iterators.get e.idx

/-- What is left of the streams on the heap. -/
def Merging.left (m : Merging k) : List NodeStream := m.heap.toList.map (Entry.left m.iterators)

/-- The places of the streams on the heap. -/
def Merging.places (m : Merging k) : List (Fin k) := m.heap.toList.map Entry.idx

theorem iterators_pullNext_self (m : Merging k) (idx : Fin k) :
    (m.pullNext idx).iterators.get idx = (pull (m.iterators.get idx)).rest := by
  simp [Merging.pullNext, Vector.get_eq_getElem]

theorem iterators_pullNext_of_ne (m : Merging k) {idx i : Fin k} (h : i ≠ idx) :
    (m.pullNext idx).iterators.get i = m.iterators.get i := by
  have hne : idx.val ≠ i.val := fun heq => h (Fin.ext heq.symm)
  simp [Merging.pullNext, Vector.get_eq_getElem, hne]

theorem pushRow_perm (heap : Array (Entry k)) (idx : Fin k) (row : Option Node) :
    (pushRow compare heap idx row).toList.Perm ((row.toList.map fun row => ⟨row, idx⟩) ++ heap.toList) := by
  cases row with
  | none => exact .refl _
  | some row =>
    refine (Heap.siftUp_perm _ _ _ _).toList.trans ?_
    rw [Array.toList_push]
    exact List.perm_append_singleton _ _

theorem refillRoot_perm (heap : Array (Entry k)) (h : 0 < heap.size) (next : Option Node) :
    (refillRoot compare heap h next).toList.Perm
      ((next.toList.map fun next => ⟨next, heap[0].idx⟩) ++ heap.toList.tail) := by
  cases next with
  | some next =>
    refine (Heap.siftDown_perm _ _ _).toList.trans (.of_eq ?_)
    rw [Heap.toList_set_zero]
    rfl
  | none =>
    unfold refillRoot
    dsimp only
    split
    · next hpop =>
      refine (Heap.siftDown_perm _ _ _).toList.trans ?_
      rw [Heap.toList_set_zero _ hpop]
      exact Heap.last_perm h hpop
    · next hpop =>
      refine .of_eq ?_
      rw [Heap.toList_of_empty hpop, ← Heap.tail_of_pop_empty hpop]
      rfl

theorem left_pullNext (m : Merging k) (idx : Fin k) {es : List (Entry k)} (h : idx ∉ es.map Entry.idx) :
    (((pull (m.iterators.get idx)).node.toList.map fun row => (⟨row, idx⟩ : Entry k)) ++ es).map
        (Entry.left (m.pullNext idx).iterators) =
      (pull (m.iterators.get idx)).left ++ es.map (Entry.left m.iterators) := by
  rw [List.map_append, List.map_map]
  refine congrArg₂ _ (List.map_congr_left fun row _ => ?_) (List.map_congr_left fun e he => ?_)
  · exact congrArg (StreamItem.node row :: ·) (iterators_pullNext_self m idx)
  · have hne : e.idx ≠ idx := fun heq => h (heq ▸ List.mem_map_of_mem he)
    rw [Entry.left, Entry.left, iterators_pullNext_of_ne m hne]

theorem left_primed (m : Merging k) {idx : Fin k} (h : idx ∉ m.places) :
    (m.primed compare idx).left.Perm ((pull (m.iterators.get idx)).left ++ m.left) := by
  rw [Merging.left, Merging.left, ← left_pullNext m idx h]
  exact (pushRow_perm compare _ _ _).map _

theorem places_primed (m : Merging k) (idx : Fin k) :
    (m.primed compare idx).places.Perm (((pull (m.iterators.get idx)).node.toList.map fun _ => idx) ++ m.places) := by
  refine ((pushRow_perm compare m.heap idx _).map Entry.idx).trans (.of_eq ?_)
  rw [List.map_append, List.map_map]
  rfl

theorem places_refilled (m : Merging k) (h : 0 < m.heap.size) :
    (m.refilled compare h).places.Perm
      (((pull (m.iterators.get m.heap[0].idx)).node.toList.map fun _ => m.heap[0].idx) ++
        m.heap.toList.tail.map Entry.idx) := by
  refine ((refillRoot_perm compare m.heap h _).map Entry.idx).trans (.of_eq ?_)
  rw [List.map_append, List.map_map]
  rfl

theorem places_root (m : Merging k) (h : 0 < m.heap.size) :
    m.places = m.heap[0].idx :: m.heap.toList.tail.map Entry.idx := by
  rw [Merging.places]
  conv_lhs => rw [Heap.toList_eq_cons h]
  rfl

theorem left_refilled (m : Merging k) (hd : m.places.Nodup) (h : 0 < m.heap.size) :
    m.left = (.node m.heap[0].row :: m.iterators.get m.heap[0].idx) :: m.heap.toList.tail.map (Entry.left m.iterators) ∧
      (m.refilled compare h).left.Perm
        ((pull (m.iterators.get m.heap[0].idx)).left ++ m.heap.toList.tail.map (Entry.left m.iterators)) ∧
      (m.refilled compare h).places.Nodup := by
  have hnot := List.nodup_cons.mp (places_root m h ▸ hd)
  refine ⟨?_, ?_, ?_⟩
  · rw [Merging.left]
    conv_lhs => rw [Heap.toList_eq_cons h]
    rfl
  · rw [Merging.left, ← left_pullNext m _ hnot.1]
    exact (refillRoot_perm compare m.heap h _).map _
  · refine (places_refilled compare m h).nodup_iff.mpr ?_
    cases (pull (m.iterators.get m.heap[0].idx)).node with
    | none => exact hnot.2
    | some next => exact List.nodup_cons.mpr hnot

theorem nodesLeft_refilled (m : Merging k) (hd : m.places.Nodup) (h : 0 < m.heap.size) :
    nodesLeft m.left = nodesLeft (m.refilled compare h).left + 1 := by
  obtain ⟨hleft, hleft', -⟩ := left_refilled compare m hd h
  rw [hleft, nodesLeft_perm hleft', nodesLeft_cons, nodesLeft_pull, nodes_node, List.length_cons]
  omega

theorem left_of_empty {m : Merging k} (h : ¬ 0 < m.heap.size) : m.left = [] := by
  rw [Merging.left, Heap.toList_of_empty h]
  rfl

theorem nodup_primed (m : Merging k) {i : Fin k} {is : List (Fin k)} (hd : (m.places ++ i :: is).Nodup) :
    i ∉ m.places ∧ (∀ j ∈ is, j ≠ i) ∧ ((m.primed compare i).places ++ is).Nodup := by
  have hnot := List.nodup_cons.mp (List.perm_middle.nodup_iff.mp hd)
  refine ⟨fun hi => hnot.1 (List.mem_append_left _ hi), fun j hj heq => hnot.1 (List.mem_append_right _ (heq ▸ hj)), ?_⟩
  refine ((places_primed compare m i).append_right is).nodup_iff.mpr ?_
  cases (pull (m.iterators.get i)).node with
  | none => exact hnot.2
  | some row => exact List.nodup_cons.mpr hnot

theorem prime_interleaves (m : Merging k) (is : List (Fin k)) (hd : (m.places ++ is).Nodup) :
    (prime compare m is).2.places.Nodup ∧
      nodesLeft (prime compare m is).2.left = nodesLeft (m.left ++ is.map fun i => m.iterators.get i) ∧
      ∀ out, Interleaves (prime compare m is).2.left out →
        Interleaves (m.left ++ is.map fun i => m.iterators.get i) ((prime compare m is).1 ++ out) := by
  induction is generalizing m with
  | nil =>
    rw [List.append_nil] at hd
    exact ⟨hd, by simp [prime], fun out h => by simpa [prime] using h⟩
  | cons i is ih =>
    obtain ⟨hi, his, hd'⟩ := nodup_primed compare m hd
    have hothers : (is.map fun j => (m.primed compare i).iterators.get j) = is.map fun j => m.iterators.get j :=
      List.map_congr_left fun j hj => iterators_pullNext_of_ne m (his j hj)
    have hpulled := (left_primed compare m hi).append_right (is.map fun j => m.iterators.get j)
    rw [List.append_assoc] at hpulled
    obtain ⟨hnodup, hleft, hout⟩ := ih _ hd'
    rw [hothers] at hleft hout
    refine ⟨hnodup, ?_, fun out h => ?_⟩
    · rw [prime, List.map_cons, nodesLeft_perm List.perm_middle, nodesLeft_cons, ← nodesLeft_pull]
      exact hleft.trans (nodesLeft_perm hpulled)
    · rw [prime, List.append_assoc]
      exact .perm List.perm_middle.symm (interleaves_pull (.perm hpulled (hout out h)))

theorem mergeLoop_interleaves {fuel : ℕ} (m : Merging k) (hd : m.places.Nodup) (hfuel : nodesLeft m.left ≤ fuel) :
    Interleaves m.left (mergeLoop compare fuel m).1 := by
  induction fuel generalizing m with
  | zero =>
    have h : ¬ 0 < m.heap.size := fun h => by
      have := nodesLeft_refilled compare m hd h
      omega
    rw [left_of_empty h]
    exact .nil
  | succ fuel ih =>
    by_cases h : 0 < m.heap.size
    · obtain ⟨hleft, hleft', hd'⟩ := left_refilled compare m hd h
      have hnodes := nodesLeft_refilled compare m hd h
      have hrest := ih _ hd' (by omega)
      rw [mergeLoop, dif_pos h, hleft]
      exact .take (interleaves_pull (.perm hleft' hrest))
    · rw [mergeLoop, dif_neg h, left_of_empty h]
      exact .nil

/-! ## The iterators that are not at their end -/

theorem active_pullNext (m : Merging k) {idx i : Fin k} (h : (m.pullNext idx).active.get i = true) :
    m.active.get i = true ∧ (i = idx → ∃ n, (pull (m.iterators.get idx)).node = some n) := by
  cases hnode : (pull (m.iterators.get idx)).node with
  | some n =>
    have hactive : (m.pullNext idx).active = m.active := by simp only [Merging.pullNext, hnode]; rfl
    exact ⟨hactive ▸ h, fun _ => ⟨n, rfl⟩⟩
  | none =>
    have hactive : (m.pullNext idx).active = m.active.set idx false := by simp only [Merging.pullNext, hnode]; rfl
    have hset : (m.active.set idx false)[i.val] = true := hactive ▸ h
    rw [Vector.getElem_set] at hset
    split at hset
    · cases hset
    · next hne => exact ⟨hset, fun heq => absurd (congrArg Fin.val heq.symm) hne⟩

theorem active_prime (m : Merging k) (is : List (Fin k)) (h : ∀ i : Fin k, m.active.get i = true → i ∈ m.places ++ is) :
    ∀ i : Fin k, (prime compare m is).2.active.get i = true → i ∈ (prime compare m is).2.places := by
  induction is generalizing m with
  | nil =>
    rw [List.append_nil] at h
    exact h
  | cons i is ih =>
    refine ih (m.primed compare i) fun j hj => ?_
    obtain ⟨hactive, hnode⟩ := active_pullNext m hj
    refine ((places_primed compare m i).append_right is).mem_iff.mpr ?_
    by_cases hji : j = i
    · obtain ⟨n, hn⟩ := hnode hji
      rw [hn, hji]
      exact List.mem_append_left _ (List.mem_append_left _ List.mem_cons_self)
    · have hmem := h j hactive
      simp only [List.mem_append, List.mem_cons, hji, false_or] at hmem ⊢
      tauto

theorem inactive_of_empty {m : Merging k} (hsize : ¬ 0 < m.heap.size)
    (h : ∀ i : Fin k, m.active.get i = true → i ∈ m.places) (i : Fin k) : m.active.get i = false := by
  refine Bool.eq_false_iff.mpr fun hactive => ?_
  have hmem := h i hactive
  rw [Merging.places, Heap.toList_of_empty hsize] at hmem
  cases hmem

theorem active_mergeLoop {fuel : ℕ} (m : Merging k) (hd : m.places.Nodup) (hfuel : nodesLeft m.left ≤ fuel)
    (h : ∀ i : Fin k, m.active.get i = true → i ∈ m.places) :
    ∀ i : Fin k, (mergeLoop compare fuel m).2.active.get i = false := by
  induction fuel generalizing m with
  | zero =>
    refine inactive_of_empty (fun hsize => ?_) h
    have := nodesLeft_refilled compare m hd hsize
    omega
  | succ fuel ih =>
    by_cases hsize : 0 < m.heap.size
    · have hnodes := nodesLeft_refilled compare m hd hsize
      rw [mergeLoop, dif_pos hsize]
      refine ih (m.refilled compare hsize) (left_refilled compare m hd hsize).2.2 (by omega) fun j hj => ?_
      obtain ⟨hactive, hnode⟩ := active_pullNext m hj
      refine (places_refilled compare m hsize).mem_iff.mpr ?_
      have hmem := h j hactive
      rw [places_root m hsize] at hmem
      rcases List.mem_cons.mp hmem with hroot | htail
      · obtain ⟨n, hn⟩ := hnode hroot
        rw [hn, hroot]
        exact List.mem_append_left _ List.mem_cons_self
      · exact List.mem_append_right _ htail
    · rw [mergeLoop, dif_neg hsize]
      exact inactive_of_empty hsize h

end

theorem start_iterators (streams : List NodeStream) :
    (List.finRange streams.length).map (fun i => (Merging.start streams).iterators.get i) = streams := by
  refine List.ext_getElem (by simp) fun i hi _ => ?_
  simp [Merging.start]

/-- What the priming leaves of the streams: their places are distinct, and none of their nodes has been yielded. -/
theorem primed_start (streams : List NodeStream) (compare : Node → Node → Ordering) :
    (prime compare (.start streams) (List.finRange streams.length)).2.places.Nodup ∧
      nodesLeft (prime compare (.start streams) (List.finRange streams.length)).2.left = nodesLeft streams ∧
      ∀ out, Interleaves (prime compare (.start streams) (List.finRange streams.length)).2.left out →
        Interleaves streams ((prime compare (.start streams) (List.finRange streams.length)).1 ++ out) := by
  have h := prime_interleaves compare (.start streams) (List.finRange streams.length)
    (List.nodup_finRange _)
  rw [start_iterators] at h
  exact h

/-- **The merge of sorted streams interleaves them**: every item of a stream,
marker or node, is yielded once, and those of one stream in its order. -/
theorem mergeSortedStreams_interleaves (streams : List NodeStream) (compare : Node → Node → Ordering) :
    Interleaves streams (mergeSortedStreams streams compare) := by
  obtain ⟨hnodup, hleft, hout⟩ := primed_start streams compare
  exact hout _ (mergeLoop_interleaves compare _ hnodup hleft.le)

theorem closed_eq_nil (streams : List NodeStream) (compare : Node → Node → Ordering) : closed streams compare = [] := by
  obtain ⟨hnodup, hleft, -⟩ := primed_start streams compare
  have hactive := active_mergeLoop compare _ hnodup hleft.le
    (active_prime compare (.start streams) _ fun i _ => List.mem_append_right _ (List.mem_finRange i))
  refine List.filter_eq_nil_iff.mpr fun i _ => ?_
  exact Bool.eq_false_iff.mp (hactive i)

/-! ## The markers left out of a merge of sorted streams -/

section
variable {k : ℕ} (compare : Node → Node → Ordering)

/-- An entry with what is left of its stream, the markers left out. -/
def Entry.erased (iterators : Vector NodeStream k) (e : Entry k) : Heap.Entry Node :=
  ⟨e.row, nodes (iterators.get e.idx)⟩

/-- The heap with what is left of the streams, the markers left out. -/
def Merging.erased (m : Merging k) : Array (Heap.Entry Node) := m.heap.map (Entry.erased m.iterators)

theorem erased_pullNext (m : Merging k) {idx : Fin k} {e : Entry k} (h : e.idx ≠ idx) :
    e.erased (m.pullNext idx).iterators = e.erased m.iterators := by
  rw [Entry.erased, Entry.erased, iterators_pullNext_of_ne m h]

theorem erased_pulled (m : Merging k) (idx : Fin k) (row : Node) :
    Entry.erased (m.pullNext idx).iterators ⟨row, idx⟩ = ⟨row, nodes (pull (m.iterators.get idx)).rest⟩ :=
  congrArg (Heap.Entry.mk row) (congrArg nodes (iterators_pullNext_self m idx))

theorem byEntry_erased (iterators : Vector NodeStream k) (a b : Entry k) :
    Heap.byEntry compare (a.erased iterators) (b.erased iterators) = compareEntries compare a b := rfl

theorem erased_siftUp (iterators : Vector NodeStream k) (heap : Array (Entry k)) (i : ℕ) (hi : i < heap.size) :
    (Heap.siftUp (compareEntries compare) heap i hi).map (Entry.erased iterators) =
      Heap.siftUp (Heap.byEntry compare) (heap.map (Entry.erased iterators)) i (by rwa [Array.size_map]) :=
  Heap.siftUp_map (byEntry_erased compare iterators) heap i hi

theorem erased_siftDown (iterators : Vector NodeStream k) (heap : Array (Entry k)) (i : ℕ) (hi : i < heap.size) :
    (Heap.siftDown (compareEntries compare) heap i hi).map (Entry.erased iterators) =
      Heap.siftDown (Heap.byEntry compare) (heap.map (Entry.erased iterators)) i (by rwa [Array.size_map]) :=
  Heap.siftDown_map (byEntry_erased compare iterators) heap i hi

theorem prime_erased_cons (m : Merging k) {i : Fin k} (hi : i ∉ m.places) (streams : List (List Node)) :
    Heap.prime compare (m.primed compare i).erased streams =
      Heap.prime compare m.erased (nodes (m.iterators.get i) :: streams) := by
  have hheap : m.heap.map (Entry.erased (m.pullNext i).iterators) = m.erased := by
    refine Array.map_congr_left fun e he => erased_pullNext m fun heq => hi ?_
    exact heq ▸ List.mem_map_of_mem (Array.mem_toList_iff.mpr he)
  rw [nodes_pull (m.iterators.get i), Merging.erased, Merging.primed]
  cases hnode : (pull (m.iterators.get i)).node with
  | none =>
    rw [pull_ended hnode, pushRow, hheap]
    rfl
  | some n =>
    simp only [pushRow, erased_siftUp, Array.map_push, erased_pulled, hheap, Option.toList_some,
      List.singleton_append, Heap.prime]
    simp only [Merging.erased, Array.size_map]

theorem prime_erased (m : Merging k) (is : List (Fin k)) (hd : (m.places ++ is).Nodup) :
    nodes (prime compare m is).1 = [] ∧
      (prime compare m is).2.erased = Heap.prime compare m.erased (is.map fun i => nodes (m.iterators.get i)) := by
  induction is generalizing m with
  | nil => exact ⟨rfl, rfl⟩
  | cons i is ih =>
    obtain ⟨hi, his, hd'⟩ := nodup_primed compare m hd
    obtain ⟨hnodes, herased⟩ := ih _ hd'
    have hothers : (is.map fun j => nodes ((m.primed compare i).iterators.get j)) =
        is.map fun j => nodes (m.iterators.get j) :=
      List.map_congr_left fun j hj => congrArg nodes (iterators_pullNext_of_ne m (his j hj))
    refine ⟨?_, ?_⟩
    · rw [prime, nodes_append, nodes_forwarded, hnodes]
      rfl
    · rw [prime, herased, hothers, prime_erased_cons compare m hi]
      rfl

theorem idx_ne_root (m : Merging k) (hd : m.places.Nodup) (h : 0 < m.heap.size) :
    ∀ e ∈ m.heap.toList.tail, e.idx ≠ m.heap[0].idx := by
  intro e he heq
  exact (List.nodup_cons.mp (places_root m h ▸ hd)).1 (heq ▸ List.mem_map_of_mem he)

theorem erased_set_next (m : Merging k) (hd : m.places.Nodup) (h : 0 < m.heap.size) (h' : 0 < m.erased.size)
    (next : Node) :
    (m.heap.set 0 ⟨next, m.heap[0].idx⟩).map (Entry.erased (m.pullNext m.heap[0].idx).iterators) =
      m.erased.set 0 ⟨next, nodes (pull (m.iterators.get m.heap[0].idx)).rest⟩ := by
  rw [← Array.toList_inj, Array.toList_map, Heap.toList_set_zero, Heap.toList_set_zero, List.map_cons, erased_pulled,
    List.map_congr_left fun e he => erased_pullNext m (idx_ne_root m hd h e he), Merging.erased, Array.toList_map,
    List.map_tail]

theorem erased_set_last (m : Merging k) (hd : m.places.Nodup) (h : 0 < m.heap.size) (h' : 0 < m.erased.size)
    (hpop : 0 < m.heap.pop.size) (hpop' : 0 < m.erased.pop.size) :
    (m.heap.pop.set 0 m.heap[m.heap.size - 1]).map (Entry.erased (m.pullNext m.heap[0].idx).iterators) =
      m.erased.pop.set 0 m.erased[m.erased.size - 1] := by
  have hothers : ∀ e ∈ m.heap.pop.set 0 m.heap[m.heap.size - 1], e.erased (m.pullNext m.heap[0].idx).iterators =
      e.erased m.iterators := by
    intro e he
    rw [← Array.mem_toList_iff, Heap.toList_set_zero _ hpop] at he
    exact erased_pullNext m (idx_ne_root m hd h e ((Heap.last_perm h hpop).subset he))
  rw [Array.map_congr_left hothers, Array.map_set]
  simp only [Merging.erased, Array.map_pop, Array.getElem_map, Array.size_map]

theorem refilled_erased (m : Merging k) (hd : m.places.Nodup) (h : 0 < m.heap.size)
    (h' : 0 < m.erased.size) : (m.refilled compare h).erased = Heap.refill compare m.erased h' := by
  have hroot : m.erased[0].rest = nodes (m.iterators.get m.heap[0].idx) := by
    simp only [Merging.erased, Array.getElem_map]
    rfl
  rw [nodes_pull] at hroot
  cases hnode : (pull (m.iterators.get m.heap[0].idx)).node with
  | none =>
    rw [hnode, pull_ended hnode] at hroot
    rw [Heap.refill_nil compare h' hroot, Merging.erased, Merging.refilled, hnode, refillRoot]
    have hpop : m.erased.pop.size = m.heap.pop.size := by simp [Merging.erased]
    by_cases hsize : 0 < m.heap.pop.size
    · have hset := erased_set_last m hd h h' hsize (hpop ▸ hsize)
      rw [dif_pos hsize, dif_pos (hpop ▸ hsize), erased_siftDown, Heap.replaceRoot]
      simp only [hset]
    · rw [dif_neg hsize, dif_neg (hpop ▸ hsize)]
      have hempty : m.heap.pop = #[] := Array.eq_empty_of_size_eq_zero (Nat.eq_zero_of_not_pos hsize)
      simp only [Merging.erased, ← Array.map_pop, hempty, Array.map_empty]
  | some n =>
    rw [hnode] at hroot
    rw [Heap.refill_cons compare h' hroot, Merging.erased, Merging.refilled, hnode, refillRoot]
    simp only [erased_siftDown, Heap.replaceRoot, erased_set_next m hd h h']
    rfl

theorem mergeLoop_erased {fuel : ℕ} (m : Merging k) (hd : m.places.Nodup) :
    nodes (mergeLoop compare fuel m).1 = Heap.mergeLoop compare fuel m.erased := by
  induction fuel generalizing m with
  | zero => rfl
  | succ fuel ih =>
    have hsize : m.erased.size = m.heap.size := Array.size_map ..
    by_cases h : 0 < m.heap.size
    · have h' : 0 < m.erased.size := by rwa [hsize]
      have hd' := (left_refilled compare m hd h).2.2
      rw [mergeLoop, dif_pos h, Heap.mergeLoop, dif_pos h', ← refilled_erased compare m hd h h', ← ih _ hd']
      simp only [List.cons_append, nodes_node, nodes_append, nodes_forwarded, List.nil_append, Merging.erased,
        Array.getElem_map]
      rfl
    · rw [mergeLoop, dif_neg h, Heap.mergeLoop, dif_neg (by rwa [hsize])]
      rfl

end

/-- **The markers do not matter** to what is merged. -/
theorem nodes_mergeSortedStreams (streams : List NodeStream) (compare : Node → Node → Ordering) :
    nodes (mergeSortedStreams streams compare) = Heap.mergeSortedStreams compare (streams.map nodes) := by
  have hstreams : (List.finRange streams.length).map (fun i => nodes ((Merging.start streams).iterators.get i)) =
      streams.map nodes := by
    conv_rhs => rw [← start_iterators streams, List.map_map]
    rfl
  obtain ⟨hnodes, herased⟩ := prime_erased compare (.start streams) (List.finRange streams.length)
    (List.nodup_finRange _)
  have hempty : (Merging.start streams).erased = #[] := Array.map_empty
  rw [mergeSortedStreams, runMerge, nodes_append, hnodes, mergeLoop_erased compare _ (primed_start streams compare).1,
    herased, hstreams, hempty, Heap.mergeSortedStreams, List.map_map]
  rfl

/-! ## `mergeFetches` -/

/-- The nodes a cursor has left. -/
def Cursor.left (c : Cursor) : List Node := c.current.toList ++ nodes c.iterator

@[simp] theorem Cursor.left_at (iterator : NodeStream) : (Cursor.at iterator).left = nodes iterator :=
  (nodes_pull iterator).symm

theorem Cursor.left_none {c : Cursor} (h : c.current = none) : c.left = [] := by
  rw [left, h, c.ended h]
  rfl

section
variable (comparator : Node → Node → Ordering)

/-- The `reduce` finds the least head of what the cursors have left. -/
theorem minCurrent_eq (acc : Option (Node × ℕ)) (i : ℕ) (cursors : List Cursor) :
    minCurrent comparator acc i cursors = SortedList.minHead comparator acc i (cursors.map Cursor.left) := by
  induction cursors generalizing acc i with
  | nil => rfl
  | cons c cursors ih =>
    rw [minCurrent, List.map_cons]
    cases hc : c.current with
    | none =>
      rw [Cursor.left_none hc]
      exact ih acc (i + 1)
    | some node =>
      rw [Cursor.left, hc]
      exact ih _ (i + 1)

theorem minCurrent_mem {cursors : List Cursor} {min : Node × ℕ}
    (h : minCurrent comparator none 0 cursors = some min) :
    ∃ before c after, cursors = before ++ c :: after ∧ min.2 = before.length ∧ c.current = some min.1 := by
  rw [minCurrent_eq] at h
  rcases SortedList.minHead_mem comparator h with hnone | ⟨before, l, after, hlists, hlen⟩
  · cases hnone
  · obtain ⟨before', rest, rfl, rfl, hrest⟩ := List.map_eq_append_iff.mp hlists
    obtain ⟨c, after', rfl, hc, rfl⟩ := List.map_eq_cons_iff.mp hrest
    refine ⟨before', c, after', rfl, by simpa using hlen, ?_⟩
    cases hcurrent : c.current with
    | none =>
      rw [Cursor.left_none hcurrent] at hc
      cases hc
    | some node =>
      rw [Cursor.left, hcurrent] at hc
      exact congrArg some (List.cons.inj hc).1

theorem fetchLoop_turn {cursors : List Cursor} (h : cursors.any (·.current.isSome)) :
    ∃ before c after node, cursors = before ++ c :: after ∧ c.left = node :: nodes c.iterator ∧
      minCurrent comparator none 0 cursors = some (node, before.length) ∧
      ∀ fuel lastNodeYielded, fetchLoop comparator (fuel + 1) lastNodeYielded cursors =
        if lastNodeYielded.any fun last => comparator last node = .eq then
          (pull c.iterator).forwarded ++ fetchLoop comparator fuel lastNodeYielded (before ++ .at c.iterator :: after)
        else (pull c.iterator).forwarded ++
          .node node :: fetchLoop comparator fuel (some node) (before ++ .at c.iterator :: after) := by
  obtain ⟨⟨node, index⟩, hmin⟩ := Option.isSome_iff_exists.mp (minCurrent_isSome comparator h)
  obtain ⟨before, c, after, rfl, hindex, hcurrent⟩ := minCurrent_mem comparator hmin
  dsimp only at hindex hcurrent
  subst hindex
  refine ⟨before, c, after, node, rfl, by rw [Cursor.left, hcurrent]; rfl, hmin, fun fuel lastNodeYielded => ?_⟩
  have hget : (before ++ c :: after)[before.length]? = some c := by simp
  have hset : (before ++ c :: after).set before.length (.at c.iterator) = before ++ .at c.iterator :: after := by simp
  rw [fetchLoop, dif_pos h]
  simp only [hmin, Option.get_some, hget, Option.elim_some, hset]

theorem ended_of_none {cursors : List Cursor} (h : ¬ cursors.any (·.current.isSome)) :
    ∀ c ∈ cursors, c.current = none := by
  simpa using h

/-- The nodes yielded, in the terms of `Merge`. -/
theorem nodes_fetchLoop {fuel : ℕ} (lastNodeYielded : Option Node) (cursors : List Cursor) :
    nodes (fetchLoop comparator fuel lastNodeYielded cursors) =
      SortedList.mergeAfter comparator fuel lastNodeYielded (cursors.map Cursor.left) := by
  induction fuel generalizing lastNodeYielded cursors with
  | zero => rfl
  | succ fuel ih =>
    by_cases h : cursors.any (·.current.isSome)
    · obtain ⟨before, c, after, node, rfl, hleft, hmin, hturn⟩ := fetchLoop_turn comparator h
      have htail : ((before ++ c :: after).map Cursor.left).modify before.length List.tail =
          (before ++ Cursor.at c.iterator :: after).map Cursor.left := by
        rw [List.map_append, List.map_cons, hleft, ← List.length_map Cursor.left, SortedList.modify_tail, List.map_append,
          List.map_cons, Cursor.left_at]
      rw [minCurrent_eq] at hmin
      rw [hturn, SortedList.mergeAfter]
      simp only [hmin, htail]
      split
      · rw [nodes_append, nodes_forwarded, List.nil_append, ih]
      · rw [nodes_append, nodes_forwarded, List.nil_append, nodes_node, ih]
    · have hnone : minCurrent comparator none 0 cursors = none := by
        refine Option.eq_none_iff_forall_ne_some.mpr fun min hmin => ?_
        obtain ⟨before, c, after, rfl, -, hcurrent⟩ := minCurrent_mem comparator hmin
        rw [ended_of_none h c (by simp)] at hcurrent
        cases hcurrent
      rw [minCurrent_eq] at hnone
      rw [fetchLoop, dif_neg h, SortedList.mergeAfter]
      simp only [hnone]
      rfl

theorem yields_fetchLoop {fuel : ℕ} (lastNodeYielded : Option Node) (cursors : List Cursor)
    (hfuel : (cursors.map fun c => c.left.length).sum ≤ fuel) :
    yields (fetchLoop comparator fuel lastNodeYielded cursors) = (cursors.map fun c => yields c.iterator).sum := by
  have hended : ∀ cursors : List Cursor, ¬ cursors.any (·.current.isSome) →
      (cursors.map fun c => yields c.iterator).sum = 0 := by
    intro cursors h
    refine List.sum_eq_zero fun n hn => ?_
    obtain ⟨c, hc, rfl⟩ := List.mem_map.mp hn
    rw [c.ended (ended_of_none h c hc)]
    rfl
  induction fuel generalizing lastNodeYielded cursors with
  | zero =>
    rw [hended cursors fun h => ?_]
    · rfl
    · obtain ⟨before, c, after, node, rfl, hleft, -⟩ := fetchLoop_turn comparator h
      simp [hleft] at hfuel
  | succ fuel ih =>
    by_cases h : cursors.any (·.current.isSome)
    · obtain ⟨before, c, after, node, rfl, hleft, -, hturn⟩ := fetchLoop_turn comparator h
      have hfuel' : ((before ++ Cursor.at c.iterator :: after).map fun c => c.left.length).sum ≤ fuel := by
        simp only [List.map_append, List.map_cons, List.sum_append, List.sum_cons, hleft, List.length_cons,
          Cursor.left_at] at hfuel ⊢
        omega
      have hyields := yields_pull c.iterator
      have hsum : yields (pull c.iterator).forwarded +
          ((before ++ Cursor.at c.iterator :: after).map fun c => yields c.iterator).sum =
            ((before ++ c :: after).map fun c => yields c.iterator).sum := by
        simp only [List.map_append, List.map_cons, List.sum_append, List.sum_cons, Cursor.at]
        omega
      rw [hturn]
      split
      · rw [yields_append, ih _ _ hfuel', hsum]
      · rw [yields_append, yields_node, ih _ _ hfuel', hsum]
    · rw [fetchLoop, dif_neg h, hended cursors h]
      rfl

end

/-- **The markers do not matter** to what is fetched. -/
theorem nodes_mergeFetches (fetches : List NodeStream) (comparator : Node → Node → Ordering) :
    nodes (mergeFetches fetches comparator) = ZeroSync.mergeFetches (fetches.map nodes) comparator := by
  have hforwarded : nodes (fetches.flatMap fun iter => (pull iter).forwarded) = [] := by
    induction fetches with
    | nil => rfl
    | cons s fetches ih => simp [ih]
  have hleft : (fetches.map Cursor.at).map Cursor.left = fetches.map nodes := by simp
  rw [mergeFetches, nodes_append, hforwarded, nodes_fetchLoop, hleft, ZeroSync.mergeFetches, SortedList.merge,
    List.map_map]
  rfl

theorem yields_mergeFetches (fetches : List NodeStream) (comparator : Node → Node → Ordering) :
    yields (mergeFetches fetches comparator) = (fetches.map yields).sum := by
  have hpull : yields (fetches.flatMap fun iter => (pull iter).forwarded) +
      ((fetches.map Cursor.at).map fun c => yields c.iterator).sum = (fetches.map yields).sum := by
    induction fetches with
    | nil => rfl
    | cons s fetches ih =>
      have hs := yields_pull s
      simp only [List.flatMap_cons, yields_append, List.map_cons, List.sum_cons, Cursor.at] at ih ⊢
      omega
  rw [mergeFetches, yields_append, yields_fetchLoop _ _ _ (by simp [Function.comp_def]), hpull]

/-! ## Sorted streams -/

section
variable {compare : Node → Node → Ordering} [Std.TransCmp compare] {streams : List NodeStream}

/-- **Sorted streams are merged**: into all their nodes, in order, by
`mergeSortedStreams`; into one node of each kind, in order, by `mergeFetches`.
Both forward every marker, the first between the nodes of its stream. -/
theorem sorted_streams_merged (hs : ∀ s ∈ streams, (nodes s).Pairwise fun a b => (compare a b).isLE) :
    ((nodes (mergeSortedStreams streams compare)).Perm (streams.flatMap nodes) ∧
      (nodes (mergeSortedStreams streams compare)).Pairwise (fun a b => (compare a b).isLE) ∧
      yields (mergeSortedStreams streams compare) = (streams.map yields).sum ∧
      ∀ s ∈ streams, s.Sublist (mergeSortedStreams streams compare)) ∧
    ((nodes (mergeFetches streams compare)).Pairwise (fun a b => compare a b = .lt) ∧
      (∀ n ∈ nodes (mergeFetches streams compare), n ∈ streams.flatMap nodes) ∧
      (∀ n ∈ streams.flatMap nodes,
        ∃ m, (nodes (mergeFetches streams compare)).filter (fun m => compare m n = .eq) = [m]) ∧
      yields (mergeFetches streams compare) = (streams.map yields).sum) := by
  have hs : ∀ l ∈ streams.map nodes, l.Pairwise fun a b => (compare a b).isLE := by simpa using hs
  have hunion : (streams.map nodes).flatten = streams.flatMap nodes := List.flatMap_def.symm
  have hinterleaves := mergeSortedStreams_interleaves streams compare
  refine ⟨⟨?_, ?_, ?_, hinterleaves.sublist⟩, ?_, fun n hn => ?_, fun n hn => ?_, yields_mergeFetches streams compare⟩
  · rw [nodes_mergeSortedStreams, ← hunion]
    exact (Heap.mergeSortedStreams_spec hs).1
  · rw [nodes_mergeSortedStreams]
    exact (Heap.mergeSortedStreams_spec hs).2
  · rw [yields_perm hinterleaves.perm_flatten, yields_flatten]
  · rw [nodes_mergeFetches]
    exact (SortedList.merge_spec hs).1
  · rw [nodes_mergeFetches] at hn
    rw [← hunion]
    exact List.mem_of_find?_eq_some (((SortedList.merge_spec hs).2 n).mp hn)
  · rw [nodes_mergeFetches]
    exact SortedList.exists_filter_merge hs (hunion ▸ hn)

end

/-- A node of one column. -/
def openNode (b : Bool) : Node := .ofRow fun _ => .bool b

def byOpen : Node → Node → Ordering := byRow (makeComparator [("open", .asc)])

instance : Std.TransCmp byOpen := inferInstanceAs (Std.TransCmp (byRow _))

/-- Streams with repeats, one of them empty. -/
def openStreams : List NodeStream :=
  [[.yield, .node (openNode false), .yield, .node (openNode true)], [],
    [.node (openNode true), .node (openNode true), .yield]]

theorem sorted_streams_merged_open :
    yields (mergeSortedStreams openStreams byOpen) = 3 ∧
      ∃ m, (nodes (mergeFetches openStreams byOpen)).filter (fun m => byOpen m (openNode true) = .eq) = [m] := by
  have hs : ∀ s ∈ openStreams, (nodes s).Pairwise fun a b => (byOpen a b).isLE := by
    decide
  obtain ⟨⟨-, -, hyields, -⟩, -, -, hone, -⟩ := sorted_streams_merged hs
  exact ⟨hyields, hone _ (by simp [openStreams])⟩

example : mergeFetches openStreams byOpen =
    [.yield, .yield, .node (openNode false), .node (openNode true), .yield] := rfl

end Marked

end ZeroSync
