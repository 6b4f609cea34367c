/-
Binary heaps in arrays, and the merge of sorted streams through one.

The two sifts repair a heap that is out of order around one place (`UpReady`,
`DownReady`) and move its elements about (`siftUp_perm`, `siftDown_perm`), so
the first element of a heap is a least one and a merge that takes it each time
is sorted (`mergeSortedStreams_spec`).
-/
import Mathlib
import ZeroSync.SortedList

namespace Heap

variable {α : Type*}

section
variable (cmp : α → α → Ordering)

/-- `siftUp`. -/
def siftUp (heap : Array α) (i : ℕ) (hi : i < heap.size) : Array α :=
  if h0 : 0 < i then
    have hp : (i - 1) / 2 < heap.size := by omega
    if (cmp heap[i] heap[(i - 1) / 2]).isGE then heap
    else siftUp (heap.swap i ((i - 1) / 2)) ((i - 1) / 2) (by rw [Array.size_swap]; exact hp)
  else heap
termination_by i

/-- The place of a candidate, if its element is less than the least so far. -/
def pick (heap : Array α) (smallest candidate : ℕ) : ℕ :=
  if heap[candidate]?.any fun x => heap[smallest]?.any fun y => cmp x y = .lt then candidate else smallest

/-- `smallest`, in `siftDown`: the place of the least of an element and its children. -/
def smallest (heap : Array α) (i : ℕ) : ℕ := pick cmp heap (pick cmp heap i (2 * i + 1)) (2 * i + 2)

theorem pick_mem {heap : Array α} {s c : ℕ} (hs : s < heap.size) : pick cmp heap s c < heap.size ∧
    (pick cmp heap s c = s ∨ pick cmp heap s c = c) := by
  unfold pick
  split
  · next h =>
    refine ⟨?_, .inr rfl⟩
    by_contra hc
    simp [Array.getElem?_eq_none (Nat.le_of_not_lt hc)] at h
  · exact ⟨hs, .inl rfl⟩

theorem smallest_mem {heap : Array α} {i : ℕ} (hi : i < heap.size) : smallest cmp heap i < heap.size ∧
    (smallest cmp heap i = i ∨ i < smallest cmp heap i ∧ (smallest cmp heap i - 1) / 2 = i) := by
  obtain ⟨hl, hl'⟩ := pick_mem cmp (c := 2 * i + 1) hi
  obtain ⟨hr, hr'⟩ := pick_mem cmp (c := 2 * i + 2) hl
  unfold smallest
  refine ⟨hr, ?_⟩
  omega

/-- `siftDown`. -/
def siftDown (heap : Array α) (i : ℕ) (hi : i < heap.size) : Array α :=
  have h := smallest_mem cmp hi
  if hs : smallest cmp heap i = i then heap
  else siftDown (heap.swap i (smallest cmp heap i) hi h.1) (smallest cmp heap i) (by rw [Array.size_swap]; exact h.1)
termination_by heap.size - i
decreasing_by
  rw [Array.size_swap]
  omega

/-- The elements at two places, if they are there, are in order. -/
def Le (heap : Array α) (i j : ℕ) : Prop :=
  ∀ a b, heap[i]? = some a → heap[j]? = some b → (cmp a b).isLE

/-- No element is less than its parent. -/
def IsHeap (heap : Array α) : Prop := ∀ i, 0 < i → Le cmp heap ((i - 1) / 2) i

/-- A heap but for an element that may be less than its parent. -/
structure UpReady (heap : Array α) (i : ℕ) : Prop where
  others : ∀ k, 0 < k → k ≠ i → Le cmp heap ((k - 1) / 2) k
  children : 0 < i → ∀ k, 0 < k → (k - 1) / 2 = i → Le cmp heap ((i - 1) / 2) k

/-- A heap but for an element that may be greater than its children. -/
structure DownReady (heap : Array α) (i : ℕ) : Prop where
  others : ∀ k, 0 < k → (k - 1) / 2 ≠ i → Le cmp heap ((k - 1) / 2) k
  children : 0 < i → ∀ k, 0 < k → (k - 1) / 2 = i → Le cmp heap ((i - 1) / 2) k

end

section
variable {cmp : α → α → Ordering} [Std.TransCmp cmp]

theorem Le.trans {heap : Array α} {i j k : ℕ} (h : Le cmp heap i j) (h' : Le cmp heap j k) (hj : j < heap.size) :
    Le cmp heap i k := fun a b ha hb =>
  Std.TransCmp.isLE_trans (h a heap[j] ha (Array.getElem?_eq_getElem hj))
    (h' heap[j] b (Array.getElem?_eq_getElem hj) hb)

omit [Std.TransCmp cmp] in
theorem le_of_getElem {heap : Array α} {i j : ℕ} (hi : i < heap.size) (hj : j < heap.size)
    (h : (cmp heap[i] heap[j]).isLE) : Le cmp heap i j := by
  intro a b ha hb
  rw [Array.getElem?_eq_getElem hi] at ha
  rw [Array.getElem?_eq_getElem hj] at hb
  obtain rfl := Option.some.inj ha
  obtain rfl := Option.some.inj hb
  exact h

theorem getElem?_swap {heap : Array α} {i j : ℕ} (hi : i < heap.size) (hj : j < heap.size) (k : ℕ) :
    (heap.swap i j)[k]? = if k = i then heap[j]? else if k = j then heap[i]? else heap[k]? := by
  rw [Array.getElem?_swap, Array.getElem?_eq_getElem hi, Array.getElem?_eq_getElem hj]
  grind

omit [Std.TransCmp cmp] in
theorem le_swap {heap : Array α} {i j : ℕ} (hi : i < heap.size) (hj : j < heap.size) {k m : ℕ} :
    Le cmp (heap.swap i j) k m ↔ Le cmp heap (if k = i then j else if k = j then i else k)
      (if m = i then j else if m = j then i else m) := by
  have hread : ∀ k, (heap.swap i j)[k]? = heap[if k = i then j else if k = j then i else k]? := by
    intro k
    rw [getElem?_swap hi hj]
    split
    · rfl
    · split <;> rfl
  simp only [Le, hread]

/-! ## Sifting up -/

/-- One step up: what was out of order at a place is out of order at its parent. -/
theorem UpReady.swap {heap : Array α} {i : ℕ} (hi : i < heap.size) (h0 : 0 < i) (hp : (i - 1) / 2 < heap.size)
    (h : UpReady cmp heap i) (hlt : cmp heap[i] heap[(i - 1) / 2] = .lt) :
    UpReady cmp (heap.swap i ((i - 1) / 2)) ((i - 1) / 2) := by
  have hle : Le cmp heap i ((i - 1) / 2) := le_of_getElem hi hp (by rw [hlt]; rfl)
  constructor
  · intro k hk hne
    rw [le_swap hi hp]
    by_cases hki : k = i
    · subst hki
      rw [if_neg (by omega), if_pos rfl, if_pos rfl]
      exact hle
    · rw [if_neg hki, if_neg hne]
      by_cases hpk : (k - 1) / 2 = i
      · rw [if_pos hpk]
        exact h.children h0 k hk hpk
      · rw [if_neg hpk]
        split
        · next hpp => exact hle.trans (hpp ▸ h.others k hk hki) hp
        · exact h.others k hk hki
  · intro hp0 k hk hpk
    have hup := h.others ((i - 1) / 2) hp0 (by omega)
    rw [le_swap hi hp, if_neg (by omega), if_neg (by omega)]
    by_cases hki : k = i
    · rw [if_pos hki]
      exact hup
    · rw [if_neg hki, if_neg (by omega)]
      exact hup.trans (hpk ▸ h.others k hk hki) hp

/-- **Sifting up** repairs the heap. -/
theorem siftUp_isHeap (heap : Array α) (i : ℕ) (hi : i < heap.size) (h : UpReady cmp heap i) :
    IsHeap cmp (siftUp cmp heap i hi) := by
  induction heap, i, hi using siftUp.induct cmp with
  | case1 heap i hi h0 hp hge =>
    rw [siftUp, dif_pos h0, if_pos hge]
    intro k hk
    by_cases hki : k = i
    · subst hki
      refine le_of_getElem hp hi ?_
      refine SortedList.isLE_of_not_lt fun hlt => ?_
      rw [hlt] at hge
      cases hge
    · exact h.others k hk hki
  | case2 heap i hi h0 hp hge ih =>
    rw [siftUp, dif_pos h0, if_neg hge]
    refine ih (h.swap hi h0 hp ?_)
    simpa using hge
  | case3 heap i hi h0 =>
    rw [siftUp, dif_neg h0]
    intro k hk
    exact h.others k hk (by omega)

variable (cmp) in
omit [Std.TransCmp cmp] in
theorem siftUp_perm (heap : Array α) (i : ℕ) (hi : i < heap.size) :
    (siftUp cmp heap i hi).Perm heap := by
  induction heap, i, hi using siftUp.induct cmp with
  | case1 heap i hi h0 hp hge =>
    rw [siftUp, dif_pos h0, if_pos hge]
  | case2 heap i hi h0 hp hge ih =>
    rw [siftUp, dif_pos h0, if_neg hge]
    exact ih.trans (Array.swap_perm hi hp)
  | case3 heap i hi h0 =>
    rw [siftUp, dif_neg h0]

/-! ## Sifting down -/

theorem Le.refl (heap : Array α) (i : ℕ) : Le cmp heap i i := by
  intro a b ha hb
  obtain rfl := Option.some.inj (ha.symm.trans hb)
  have hself : cmp a a = .eq := Std.ReflCmp.compare_self
  rw [hself]
  rfl

variable (cmp) in
theorem pick_le (heap : Array α) (s c : ℕ) :
    Le cmp heap (pick cmp heap s c) s ∧ Le cmp heap (pick cmp heap s c) c := by
  unfold pick
  split
  · next h =>
    refine ⟨fun a b ha hb => ?_, .refl heap c⟩
    simp only [ha, hb, Option.any_some, decide_eq_true_eq] at h
    rw [h]
    rfl
  · next h =>
    refine ⟨.refl heap s, fun a b ha hb => SortedList.isLE_of_not_lt fun hlt => h ?_⟩
    simp [ha, hb, hlt]

theorem smallest_le {heap : Array α} {i : ℕ} (hi : i < heap.size) {k : ℕ} (hk : k = i ∨ 0 < k ∧ (k - 1) / 2 = i) :
    Le cmp heap (smallest cmp heap i) k := by
  have hl := pick_mem cmp (c := 2 * i + 1) hi
  obtain ⟨hself, hleft⟩ := pick_le cmp heap i (2 * i + 1)
  obtain ⟨hpick, hright⟩ := pick_le cmp heap (pick cmp heap i (2 * i + 1)) (2 * i + 2)
  have hcases : k = i ∨ k = 2 * i + 1 ∨ k = 2 * i + 2 := by omega
  rcases hcases with rfl | rfl | rfl
  · exact hpick.trans hself hl.1
  · exact hpick.trans hleft hl.1
  · exact hright

omit [Std.TransCmp cmp] in
/-- One step down: what was out of order at a place is out of order at its least child. -/
theorem DownReady.swap {heap : Array α} {i s : ℕ} (hi : i < heap.size) (hs : s < heap.size) (hpar : (s - 1) / 2 = i)
    (hgt : i < s) (h : DownReady cmp heap i) (hleast : ∀ k, k = i ∨ 0 < k ∧ (k - 1) / 2 = i → Le cmp heap s k) :
    DownReady cmp (heap.swap i s) s := by
  constructor
  · intro k hk hne
    rw [le_swap hi hs]
    by_cases hks : k = s
    · subst hks
      rw [if_pos hpar, if_neg (by omega), if_pos rfl]
      exact hleast i (.inl rfl)
    · rw [if_neg hne]
      by_cases hki : k = i
      · rw [if_pos hki, if_neg (by omega), hki]
        exact h.children (by omega) s (by omega) hpar
      · rw [if_neg hki, if_neg hks]
        split
        · next hpi => exact hleast k (.inr ⟨hk, hpi⟩)
        · next hpi => exact h.others k hk hpi
  · intro hs0 k hk hpk
    rw [le_swap hi hs, if_pos hpar, if_neg (by omega), if_neg (by omega), ← hpk]
    exact h.others k hk (by omega)

/-- **Sifting down** repairs the heap. -/
theorem siftDown_isHeap (heap : Array α) (i : ℕ) (hi : i < heap.size) (h : DownReady cmp heap i) :
    IsHeap cmp (siftDown cmp heap i hi) := by
  induction heap, i, hi using siftDown.induct cmp with
  | case1 heap i hi hmem hs =>
    rw [siftDown, dif_pos hs]
    intro k hk
    by_cases hpk : (k - 1) / 2 = i
    · rw [hpk, ← hs]
      exact smallest_le hi (.inr ⟨hk, hpk⟩)
    · exact h.others k hk hpk
  | case2 heap i hi hmem hs ih =>
    rw [siftDown, dif_neg hs]
    obtain ⟨hgt, hpar⟩ := hmem.2.resolve_left hs
    exact ih (h.swap hi hmem.1 hpar hgt fun k hk => smallest_le hi hk)

omit [Std.TransCmp cmp] in
theorem siftDown_perm (heap : Array α) (i : ℕ) (hi : i < heap.size) :
    (siftDown cmp heap i hi).Perm heap := by
  induction heap, i, hi using siftDown.induct cmp with
  | case1 heap i hi hmem hs =>
    rw [siftDown, dif_pos hs]
  | case2 heap i hi hmem hs ih =>
    rw [siftDown, dif_neg hs]
    exact ih.trans (Array.swap_perm hi hmem.1)

theorem IsHeap.root_le {heap : Array α} (h : IsHeap cmp heap) (i : ℕ) : Le cmp heap 0 i := by
  induction i using Nat.strongRecOn with
  | ind i ih =>
    by_cases h0 : i = 0
    · subst h0
      exact .refl heap 0
    · by_cases hp : (i - 1) / 2 < heap.size
      · exact (ih ((i - 1) / 2) (by omega)).trans (h i (by omega)) hp
      · intro a b _ hb
        rw [Array.getElem?_eq_none (by omega)] at hb
        cases hb

end

/-! ## The first element of an array -/

theorem toList_eq_cons {heap : Array α} (h : 0 < heap.size) : heap.toList = heap[0] :: heap.toList.tail := by
  obtain ⟨l⟩ := heap
  cases l with
  | nil => cases h
  | cons top l => rfl

theorem toList_set_zero {heap : Array α} (e : α) (h : 0 < heap.size) :
    (heap.set 0 e).toList = e :: heap.toList.tail := by
  obtain ⟨l⟩ := heap
  cases l with
  | nil => cases h
  | cons top l => rfl

theorem toList_of_empty {heap : Array α} (h : ¬ 0 < heap.size) : heap.toList = [] := by
  rw [← List.length_eq_zero_iff, Array.length_toList]
  omega

theorem tail_of_pop_empty {heap : Array α} (h : ¬ 0 < heap.pop.size) : heap.toList.tail = [] := by
  rw [Array.size_pop] at h
  rw [← List.length_eq_zero_iff, List.length_tail, Array.length_toList]
  omega

/-! ## The elements under a map that keeps their order -/

section
variable {β : Type*} {cmp : α → α → Ordering} {cmp' : β → β → Ordering} {f : α → β}

theorem map_swap (f : α → β) {heap : Array α} {i j : ℕ} (hi : i < heap.size) (hj : j < heap.size) :
    (heap.swap i j).map f = (heap.map f).swap i j (by rwa [Array.size_map]) (by rwa [Array.size_map]) := by
  refine Array.ext (by simp) fun k _ _ => ?_
  simp only [Array.getElem_map, Array.getElem_swap]
  split
  · rfl
  · split <;> rfl

theorem siftUp_map (hf : ∀ a b, cmp' (f a) (f b) = cmp a b) (heap : Array α) (i : ℕ) (hi : i < heap.size) :
    (siftUp cmp heap i hi).map f = siftUp cmp' (heap.map f) i (by rwa [Array.size_map]) := by
  induction heap, i, hi using siftUp.induct cmp with
  | case1 heap i hi h0 hp hge =>
    rw [siftUp, dif_pos h0, if_pos hge, siftUp, dif_pos h0, if_pos]
    simpa [hf] using hge
  | case2 heap i hi h0 hp hlt ih =>
    rw [siftUp, dif_pos h0, if_neg hlt, ih]
    conv_rhs => rw [siftUp, dif_pos h0]
    rw [if_neg (by simpa [hf] using hlt)]
    simp only [map_swap]
  | case3 heap i hi h0 => rw [siftUp, dif_neg h0, siftUp, dif_neg h0]

theorem pick_map (hf : ∀ a b, cmp' (f a) (f b) = cmp a b) (heap : Array α) (s c : ℕ) :
    pick cmp' (heap.map f) s c = pick cmp heap s c := by
  simp only [pick, Array.getElem?_map, Option.any_map, hf]

theorem smallest_map (hf : ∀ a b, cmp' (f a) (f b) = cmp a b) (heap : Array α) (i : ℕ) :
    smallest cmp' (heap.map f) i = smallest cmp heap i := by
  simp only [smallest, pick_map hf]

theorem siftDown_map (hf : ∀ a b, cmp' (f a) (f b) = cmp a b) (heap : Array α) (i : ℕ) (hi : i < heap.size) :
    (siftDown cmp heap i hi).map f = siftDown cmp' (heap.map f) i (by rwa [Array.size_map]) := by
  induction heap, i, hi using siftDown.induct cmp with
  | case1 heap i hi hmem hs =>
    rw [siftDown, dif_pos hs, siftDown, dif_pos]
    rw [smallest_map hf, hs]
  | case2 heap i hi hmem hs ih =>
    have hs' : ¬ smallest cmp' (heap.map f) i = i := by rwa [smallest_map hf]
    rw [siftDown, dif_neg hs, ih]
    conv_rhs => rw [siftDown, dif_neg hs']
    simp only [map_swap, smallest_map hf]

end

/-! ## Merging sorted streams -/

/-- An entry of the heap: the first row left of a stream, and the rows after it. -/
structure Entry (α : Type*) where
  row : α
  rest : List α

/-- The rows an entry has left. -/
def Entry.rows (e : Entry α) : List α := e.row :: e.rest

section
variable (cmp : α → α → Ordering)

/-- Entries are compared by their rows. -/
def byEntry (a b : Entry α) : Ordering := cmp a.row b.row

instance [Std.TransCmp cmp] : Std.TransCmp (byEntry cmp) where
  eq_swap {a b} := by
    have h : cmp a.row b.row = (cmp b.row a.row).swap := Std.OrientedCmp.eq_swap
    exact h
  isLE_trans {a b c} hab hbc := by
    have hab : (cmp a.row b.row).isLE := hab
    have h : (cmp a.row c.row).isLE := Std.TransCmp.isLE_trans hab hbc
    exact h

/-- The priming: the first row of each stream that has any is put on the heap. -/
def prime (heap : Array (Entry α)) : List (List α) → Array (Entry α)
  | [] => heap
  | [] :: streams => prime heap streams
  | (row :: rest) :: streams => prime (siftUp (byEntry cmp) (heap.push ⟨row, rest⟩) heap.size (by simp)) streams

/-- The heap with another entry for the first, sifted down. -/
def replaceRoot (heap : Array (Entry α)) (e : Entry α) (h : 0 < heap.size) : Array (Entry α) :=
  siftDown (byEntry cmp) (heap.set 0 e) 0 (by rwa [Array.size_set])

/-- The heap after its first entry has been emitted. -/
def refill (heap : Array (Entry α)) (h : 0 < heap.size) : Array (Entry α) :=
  match heap[0].rest with
  | next :: rest => replaceRoot cmp heap ⟨next, rest⟩ h
  | [] =>
    let last := heap[heap.size - 1]
    let heap := heap.pop
    if h : 0 < heap.size then replaceRoot cmp heap last h else heap

theorem refill_cons {heap : Array (Entry α)} (h : 0 < heap.size) {next : α} {rest : List α}
    (hrest : heap[0].rest = next :: rest) : refill cmp heap h = replaceRoot cmp heap ⟨next, rest⟩ h := by
  rw [refill, hrest]

theorem refill_nil {heap : Array (Entry α)} (h : 0 < heap.size) (hrest : heap[0].rest = []) :
    refill cmp heap h =
      if hpop : 0 < heap.pop.size then replaceRoot cmp heap.pop heap[heap.size - 1] hpop else heap.pop := by
  rw [refill, hrest]

/-- The loop of the merge; `fuel` bounds the rows left. -/
def mergeLoop : ℕ → Array (Entry α) → List α
  | 0, _ => []
  | fuel + 1, heap => if h : 0 < heap.size then heap[0].row :: mergeLoop fuel (refill cmp heap h) else []

/-- `mergeSortedStreams`. -/
def mergeSortedStreams (streams : List (List α)) : List α :=
  mergeLoop cmp (streams.map List.length).sum (prime cmp #[] streams)

end

/-- The rows that the entries of a heap have left. -/
def rowsLeft (heap : Array (Entry α)) : List α := heap.toList.flatMap Entry.rows

section
variable {cmp : α → α → Ordering} [Std.TransCmp cmp]

/-- Each entry's rows are sorted. -/
def EntriesSorted (cmp : α → α → Ordering) (heap : Array (Entry α)) : Prop :=
  ∀ e ∈ heap.toList, e.rows.Pairwise fun a b => (cmp a b).isLE

omit [Std.TransCmp cmp] in
theorem rowsLeft_perm {heap heap' : Array (Entry α)} (h : heap'.Perm heap) : (rowsLeft heap').Perm (rowsLeft heap) :=
  h.toList.flatMap_right _

omit [Std.TransCmp cmp] in
theorem EntriesSorted.perm {heap heap' : Array (Entry α)} (hs : EntriesSorted cmp heap) (h : heap'.Perm heap) :
    EntriesSorted cmp heap' := fun e he => hs e (h.toList.subset he)

theorem replaceRoot_isHeap {heap : Array (Entry α)} (h : IsHeap (byEntry cmp) heap) (e : Entry α)
    (hsize : 0 < heap.size) : IsHeap (byEntry cmp) (replaceRoot cmp heap e hsize) := by
  refine siftDown_isHeap _ _ _ ⟨fun k hk hne => ?_, fun h0 => absurd h0 (lt_irrefl 0)⟩
  intro a b ha hb
  rw [Array.getElem?_set_ne _ (by omega)] at ha hb
  exact h k hk a b ha hb

variable (cmp) in
omit [Std.TransCmp cmp] in
theorem replaceRoot_perm (heap : Array (Entry α)) (e : Entry α) (hsize : 0 < heap.size) :
    (replaceRoot cmp heap e hsize).toList.Perm (e :: heap.toList.tail) := by
  refine (siftDown_perm _ _ _).toList.trans (.of_eq ?_)
  rw [toList_set_zero _ hsize]

omit [Std.TransCmp cmp] in
theorem IsHeap.pop {heap : Array α} (h : IsHeap cmp heap) : IsHeap cmp heap.pop := by
  intro k hk a b ha hb
  rw [Array.getElem?_pop] at ha hb
  split at ha
  · split at hb
    · exact h k hk a b ha hb
    · cases hb
  · cases ha

theorem last_perm {heap : Array α} (hsize : 0 < heap.size) (hpop : 0 < heap.pop.size) :
    (heap[heap.size - 1] :: heap.pop.toList.tail).Perm heap.toList.tail := by
  obtain ⟨l⟩ := heap
  cases l with
  | nil => simp at hsize
  | cons top l =>
    cases l using List.reverseRecOn with
    | nil => simp at hpop
    | append_singleton l e =>
      have hcons : (top :: (l ++ [e])).dropLast = top :: l := by
        rw [← List.cons_append, List.dropLast_concat]
      have hget : (Array.mk (top :: (l ++ [e])))[(Array.mk (top :: (l ++ [e]))).size - 1] = e := by simp
      rw [hget, Array.toList_pop, hcons]
      exact (List.perm_append_singleton e l).symm

/-- What is left after the first entry has been emitted: a heap of the other rows. -/
theorem refill_spec {heap : Array (Entry α)} (h : IsHeap (byEntry cmp) heap) (hs : EntriesSorted cmp heap)
    (hsize : 0 < heap.size) : IsHeap (byEntry cmp) (refill cmp heap hsize) ∧
      EntriesSorted cmp (refill cmp heap hsize) ∧
      (rowsLeft heap).Perm (heap[0].row :: rowsLeft (refill cmp heap hsize)) := by
  have htop := toList_eq_cons hsize
  have hrows : rowsLeft heap = heap[0].row :: (heap[0].rest ++ heap.toList.tail.flatMap Entry.rows) := by
    rw [rowsLeft, htop]
    rfl
  have hsorted : ∀ e ∈ heap.toList.tail, e.rows.Pairwise fun a b => (cmp a b).isLE :=
    fun e he => hs e (List.mem_of_mem_tail he)
  rw [hrows]
  cases hrest : heap[0].rest with
  | cons next rest =>
    have hperm := replaceRoot_perm cmp heap ⟨next, rest⟩ hsize
    rw [refill_cons cmp hsize hrest]
    refine ⟨replaceRoot_isHeap h _ _, fun e he => ?_, .cons _ (hperm.flatMap_right Entry.rows).symm⟩
    rcases List.mem_cons.mp (hperm.subset he) with rfl | he
    · have := hs heap[0] (htop ▸ List.mem_cons_self)
      rw [Entry.rows, hrest] at this
      exact this.of_cons
    · exact hsorted e he
  | nil =>
    rw [refill_nil cmp hsize hrest]
    by_cases hpop : 0 < heap.pop.size
    · rw [dif_pos hpop]
      have hperm := replaceRoot_perm cmp heap.pop heap[heap.size - 1] hpop
      have htail := last_perm hsize hpop
      refine ⟨replaceRoot_isHeap h.pop _ _, fun e he => ?_, .cons _ ?_⟩
      · exact hsorted e (htail.subset (hperm.subset he))
      · exact ((hperm.trans htail).flatMap_right Entry.rows).symm
    · rw [dif_neg hpop, rowsLeft, toList_of_empty hpop, tail_of_pop_empty hpop]
      refine ⟨h.pop, fun e he => ?_, .refl _⟩
      rw [toList_of_empty hpop] at he
      cases he

theorem root_le_rows {heap : Array (Entry α)} (h : IsHeap (byEntry cmp) heap) (hs : EntriesSorted cmp heap)
    (hsize : 0 < heap.size) {x : α} (hx : x ∈ rowsLeft heap) : (cmp heap[0].row x).isLE := by
  obtain ⟨e, he, hxe⟩ := List.mem_flatMap.mp hx
  obtain ⟨i, hi, rfl⟩ := List.getElem_of_mem he
  rw [Array.length_toList] at hi
  have hroot : (cmp heap[0].row heap[i].row).isLE :=
    h.root_le i _ _ (Array.getElem?_eq_getElem hsize) (Array.getElem?_eq_getElem hi)
  have hrow := hs _ he
  rw [Array.getElem_toList] at hxe hrow
  rcases List.mem_cons.mp hxe with rfl | hxe
  · exact hroot
  · exact Std.TransCmp.isLE_trans hroot (List.rel_of_pairwise_cons hrow hxe)

theorem mergeLoop_spec {fuel : ℕ} {heap : Array (Entry α)} (h : IsHeap (byEntry cmp) heap)
    (hs : EntriesSorted cmp heap) (hfuel : (rowsLeft heap).length ≤ fuel) :
    (mergeLoop cmp fuel heap).Perm (rowsLeft heap) ∧ (mergeLoop cmp fuel heap).Pairwise fun a b => (cmp a b).isLE := by
  induction fuel generalizing heap with
  | zero =>
    rw [List.length_eq_zero_iff.mp (Nat.le_zero.mp hfuel)]
    exact ⟨.refl _, .nil⟩
  | succ fuel ih =>
    by_cases hsize : 0 < heap.size
    · obtain ⟨hheap, hsorted, hperm⟩ := refill_spec h hs hsize
      have hlen := hperm.length_eq
      rw [List.length_cons] at hlen
      obtain ⟨hp, hpair⟩ := ih hheap hsorted (by omega)
      rw [mergeLoop, dif_pos hsize]
      refine ⟨(hp.cons _).trans hperm.symm, List.pairwise_cons.mpr ⟨fun x hx => ?_, hpair⟩⟩
      exact root_le_rows h hs hsize (hperm.mem_iff.mpr (List.mem_cons_of_mem _ (hp.subset hx)))
    · rw [mergeLoop, dif_neg hsize, rowsLeft, toList_of_empty hsize]
      exact ⟨.refl _, .nil⟩

theorem prime_spec {heap : Array (Entry α)} {streams : List (List α)} (h : IsHeap (byEntry cmp) heap)
    (hs : EntriesSorted cmp heap) (hstreams : ∀ l ∈ streams, l.Pairwise fun a b => (cmp a b).isLE) :
    IsHeap (byEntry cmp) (prime cmp heap streams) ∧ EntriesSorted cmp (prime cmp heap streams) ∧
      (rowsLeft (prime cmp heap streams)).Perm (rowsLeft heap ++ streams.flatten) := by
  induction streams generalizing heap with
  | nil => exact ⟨h, hs, by simp [prime]⟩
  | cons l streams ih =>
    have hrest : ∀ l ∈ streams, l.Pairwise fun a b => (cmp a b).isLE := fun l hl => hstreams l (by simp [hl])
    cases l with
    | nil => simpa [prime] using ih h hs hrest
    | cons row rest =>
      have hready : UpReady (byEntry cmp) (heap.push ⟨row, rest⟩) heap.size := by
        constructor
        · intro k hk hne a b ha hb
          rw [Array.getElem?_push] at ha hb
          rw [if_neg (by omega)] at hb
          have hlt := (Array.getElem?_eq_some_iff.mp hb).1
          rw [if_neg (by omega)] at ha
          exact h k hk a b ha hb
        · intro _ k hk hpk a b ha hb
          rw [Array.getElem?_eq_none (by rw [Array.size_push]; omega)] at hb
          cases hb
      have hperm := siftUp_perm (byEntry cmp) (heap.push ⟨row, rest⟩) heap.size (by simp)
      have hpushed : EntriesSorted cmp (heap.push ⟨row, rest⟩) := by
        intro e he
        rw [Array.toList_push] at he
        rcases List.mem_append.mp he with he | he
        · exact hs e he
        · obtain rfl := List.mem_singleton.mp he
          exact hstreams (row :: rest) List.mem_cons_self
      obtain ⟨hheap, hsorted, hrows⟩ := ih (siftUp_isHeap _ _ _ hready) (hpushed.perm hperm) hrest
      refine ⟨hheap, hsorted, hrows.trans ?_⟩
      have hleft : (rowsLeft (heap.push ⟨row, rest⟩)) = rowsLeft heap ++ row :: rest := by
        simp [rowsLeft, Entry.rows]
      simpa [hleft] using (rowsLeft_perm hperm).append_right streams.flatten

/-- **The merge of sorted streams** is sorted and has the rows of each. -/
theorem mergeSortedStreams_spec {streams : List (List α)}
    (hstreams : ∀ l ∈ streams, l.Pairwise fun a b => (cmp a b).isLE) :
    (mergeSortedStreams cmp streams).Perm streams.flatten ∧
      (mergeSortedStreams cmp streams).Pairwise fun a b => (cmp a b).isLE := by
  have hempty : IsHeap (byEntry cmp) (#[] : Array (Entry α)) := fun k _ a b ha _ => by simp at ha
  obtain ⟨hheap, hsorted, hrows⟩ := prime_spec hempty (fun e he => by simp at he) hstreams
  have hrows : (rowsLeft (prime cmp #[] streams)).Perm streams.flatten := by simpa [rowsLeft] using hrows
  have hlen : (rowsLeft (prime cmp #[] streams)).length ≤ (streams.map List.length).sum := by
    rw [hrows.length_eq, List.length_flatten]
  obtain ⟨hperm, hpair⟩ := mergeLoop_spec hheap hsorted hlen
  exact ⟨hperm.trans hrows, hpair⟩

end

end Heap
