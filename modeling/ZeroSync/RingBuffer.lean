/-
`shared/src/ring-buffer.ts`: a queue in a circular array that doubles when it is
full and halves when less than a quarter of it is used.

An array is a list of slots, of which one that is out of range reads as empty and is
made by an assignment. Each operation but shrinking does to a ring buffer what it
should to the list of its elements whatever the capacity (`Holds`), and shrinking does
if the capacity is even (`Holds.shrink`), as it stays in a buffer that starts with
the default (`Represents`).
-/
import Mathlib.Data.List.GetD
import Mathlib.Data.List.Range
import Mathlib.Tactic.Ring

namespace ZeroSync

def MIN_CAPACITY : ℕ := 16

structure RingBuffer (T : Type) where
  buffer : List (Option T)
  head : ℕ
  size : ℕ
  capacity : ℕ

namespace RingBuffer

variable {T : Type}

/-- `new RingBuffer(initialCapacity)`: the array may be shorter than the capacity. -/
def ofCapacity (initialCapacity : ℕ) : RingBuffer T :=
  ⟨List.replicate initialCapacity none, 0, 0, max MIN_CAPACITY initialCapacity⟩

/-- A ring buffer of the default initial capacity. -/
def new : RingBuffer T := ⟨List.replicate MIN_CAPACITY none, 0, 0, MIN_CAPACITY⟩

/-- `this.#buffer[i]` -/
def slot (buffer : List (Option T)) (i : ℕ) : Option T := buffer.getD i none

/-- `this.#buffer[i] = value` -/
def assign (buffer : List (Option T)) (i : ℕ) (value : Option T) : List (Option T) :=
  if i < buffer.length then buffer.set i value else buffer ++ List.replicate (i - buffer.length) none ++ [value]

/-- `#grow` -/
def grow (b : RingBuffer T) : RingBuffer T :=
  let oldLen := b.buffer.length
  let newLen := oldLen * 2
  let buffer := (List.range b.head).foldl
    (fun buffer i => assign (assign buffer (oldLen + i) (slot buffer i)) i none) (b.buffer ++ List.replicate oldLen none)
  { b with buffer, capacity := newLen }

/-- `#shrink` -/
def shrink (b : RingBuffer T) : RingBuffer T :=
  let oldLen := b.buffer.length
  let newLen := max MIN_CAPACITY (oldLen / 2)
  let left := max newLen b.head
  let right := min (b.head + b.size) oldLen
  let buffer := (List.range' left (right - left)).foldl
    (fun buffer i => assign buffer (i - newLen) (slot buffer i)) b.buffer
  { b with
    buffer := buffer.take newLen ++ List.replicate (newLen - buffer.length) none
    head := if newLen ≤ b.head then b.head - newLen else b.head
    capacity := newLen }

def push (b : RingBuffer T) (value : T) : RingBuffer T :=
  let b := if b.size = b.capacity then b.grow else b
  { b with buffer := assign b.buffer ((b.head + b.size) % b.capacity) (some value), size := b.size + 1 }

def shift (b : RingBuffer T) : Option T × RingBuffer T :=
  if b.size = 0 then (none, b)
  else
    let value := slot b.buffer b.head
    let b : RingBuffer T :=
      { b with buffer := assign b.buffer b.head none, head := (b.head + 1) % b.capacity, size := b.size - 1 }
    (value, if 0 < b.size ∧ b.size < b.capacity / 4 ∧ MIN_CAPACITY < b.capacity then b.shrink else b)

/-- The elements in the order they were pushed. -/
def elements (b : RingBuffer T) : List (Option T) :=
  (List.range b.size).map fun i => slot b.buffer ((b.head + i) % b.capacity)

/-- `delete` of the elements that are a value; what is rebuilt starts at 0. -/
def delete (b : RingBuffer T) (isValue : Option T → Bool) : ℕ × RingBuffer T :=
  if b.size = 0 then (0, b)
  else
    let kept := b.elements.filter fun item => !isValue item
    (b.size - kept.length,
      { b with buffer := kept ++ List.replicate (b.capacity - kept.length) none, head := 0, size := kept.length })

def drain (b : RingBuffer T) : List (Option T) × RingBuffer T :=
  (b.elements, { b with buffer := List.replicate b.capacity none, head := 0, size := 0 })

/-- A ring buffer that holds the elements of a list, and nothing else. -/
structure Holds (b : RingBuffer T) (l : List T) : Prop where
  length : b.buffer.length ≤ b.capacity
  whole : MIN_CAPACITY < b.capacity → b.buffer.length = b.capacity
  least : MIN_CAPACITY ≤ b.capacity
  head : b.head < b.capacity
  size : b.size = l.length
  fits : l.length ≤ b.capacity
  slots : ∀ i < b.capacity, slot b.buffer ((b.head + i) % b.capacity) = l[i]?

/-- A ring buffer that holds the elements of a list, and whose capacity is halved
without a remainder until it is the least. -/
structure Represents (b : RingBuffer T) (l : List T) : Prop extends Holds b l where
  capacity : ∃ k, b.capacity = MIN_CAPACITY * 2 ^ k

theorem slot_assign (buffer : List (Option T)) (i j : ℕ) (v : Option T) :
    slot (assign buffer i v) j = if i = j then v else slot buffer j := by
  unfold slot assign
  split
  · next hi =>
    rw [List.getD_eq_getElem?_getD, List.getD_eq_getElem?_getD, List.getElem?_set]
    by_cases hij : i = j
    · subst hij
      simp [hi]
    · simp [hij]
  · next hi =>
    have hlen : (buffer ++ List.replicate (i - buffer.length) none).length = i := by
      rw [List.length_append, List.length_replicate]
      omega
    rw [List.getD_eq_getElem?_getD, List.getD_eq_getElem?_getD, List.getElem?_append, hlen]
    by_cases hij : i = j
    · subst hij
      simp
    · by_cases hlt : j < i
      · rw [if_pos hlt, if_neg hij, List.getElem?_append]
        by_cases hj : j < buffer.length
        · rw [if_pos hj]
        · rw [if_neg hj, List.getElem?_eq_none (not_lt.mp hj), List.getElem?_replicate]
          split <;> rfl
      · rw [if_neg hlt, if_neg hij, List.getElem?_eq_none (by simp; omega), List.getElem?_eq_none (by omega)]

theorem length_assign (buffer : List (Option T)) (i : ℕ) (v : Option T) :
    (assign buffer i v).length = max buffer.length (i + 1) := by
  unfold assign
  split
  · rw [List.length_set]
    omega
  · rw [List.length_append, List.length_append, List.length_replicate, List.length_singleton]
    omega

theorem slot_replicate (n i : ℕ) : slot (List.replicate n (none : Option T)) i = none := by
  unfold slot
  rw [List.getD_eq_getElem?_getD, List.getElem?_replicate]
  split <;> rfl

theorem lt_length_of_slot {buffer : List (Option T)} {i : ℕ} {v : T} (h : slot buffer i = some v) :
    i < buffer.length := by
  by_contra hge
  unfold slot at h
  rw [List.getD_eq_getElem?_getD, List.getElem?_eq_none (not_lt.mp hge)] at h
  cases h

theorem ofCapacity_holds (initialCapacity : ℕ) : (ofCapacity initialCapacity : RingBuffer T).Holds [] := by
  refine ⟨?_, fun h => ?_, le_max_left _ _, ?_, rfl, Nat.zero_le _, fun i _ => slot_replicate _ _⟩
  · change (List.replicate _ _).length ≤ max MIN_CAPACITY initialCapacity
    rw [List.length_replicate]
    exact le_max_right _ _
  · change MIN_CAPACITY < max MIN_CAPACITY initialCapacity at h
    change (List.replicate _ _).length = max MIN_CAPACITY initialCapacity
    rw [List.length_replicate]
    omega
  · exact lt_of_lt_of_le (Nat.zero_lt_succ 15) (le_max_left _ _)

theorem new_represents : (new : RingBuffer T).Represents [] :=
  ⟨ofCapacity_holds MIN_CAPACITY, 0, rfl⟩

theorem wrap {head i capacity : ℕ} (hh : head < capacity) (hi : i ≤ capacity) :
    (head + i) % capacity = if head + i < capacity then head + i else head + i - capacity := by
  split
  · next h => exact Nat.mod_eq_of_lt h
  · next h =>
    rw [Nat.mod_eq_sub_mod (not_lt.mp h)]
    exact Nat.mod_eq_of_lt (by omega)

theorem exists_distance {head j capacity : ℕ} (hh : head < capacity) (hj : j < capacity) :
    ∃ i < capacity, (head + i) % capacity = j := by
  by_cases h : head ≤ j
  · exact ⟨j - head, by omega, by rw [wrap hh (by omega), if_pos (by omega)]; omega⟩
  · exact ⟨j + capacity - head, by omega, by rw [wrap hh (by omega), if_neg (by omega)]; omega⟩

theorem Holds.elements {b : RingBuffer T} {l : List T} (h : b.Holds l) : b.elements = l.map some := by
  unfold RingBuffer.elements
  rw [h.size]
  refine List.ext_getElem (by simp) fun i hi _ => ?_
  simp only [List.length_map, List.length_range] at hi
  rw [List.getElem_map, List.getElem_map, List.getElem_range, h.slots i (lt_of_lt_of_le hi h.fits),
    List.getElem?_eq_getElem hi]

theorem slot_append_replicate (buffer : List (Option T)) (n i : ℕ) :
    slot (buffer ++ List.replicate n none) i = slot buffer i := by
  unfold slot
  rw [List.getD_eq_getElem?_getD, List.getD_eq_getElem?_getD, List.getElem?_append]
  split
  · rfl
  · next h =>
    rw [List.getElem?_eq_none (not_lt.mp h), List.getElem?_replicate]
    split <;> rfl

/-! ## Growing -/

/-- The loop of `#grow`: what has wrapped around is moved behind the old end. -/
theorem grow_loop (buffer : List (Option T)) {oldLen n : ℕ} (hlen : buffer.length = oldLen * 2) (hn : n ≤ oldLen) :
    let moved := (List.range n).foldl
      (fun buffer i => assign (assign buffer (oldLen + i) (slot buffer i)) i none) buffer
    moved.length = oldLen * 2 ∧ ∀ j, slot moved j =
      if j < n then none else if oldLen ≤ j ∧ j < oldLen + n then slot buffer (j - oldLen) else slot buffer j := by
  induction n with
  | zero =>
    refine ⟨hlen, fun j => ?_⟩
    rw [if_neg (Nat.not_lt_zero j), if_neg (by omega)]
    rfl
  | succ n ih =>
    obtain ⟨hlength, hslots⟩ := ih (by omega)
    simp only [List.range_succ, List.foldl_append, List.foldl_cons, List.foldl_nil]
    refine ⟨by rw [length_assign, length_assign, hlength]; omega, fun j => ?_⟩
    rw [slot_assign, slot_assign, hslots, hslots]
    rcases lt_trichotomy j n with hj | rfl | hj
    · rw [if_neg (by omega), if_neg (by omega), if_pos hj, if_pos (by omega)]
    · rw [if_pos rfl, if_pos (Nat.lt_succ_self j)]
    · rw [if_neg (by omega), if_neg (by omega : ¬ j < n), if_neg (by omega : ¬ j < n + 1)]
      by_cases hlast : oldLen + n = j
      · rw [if_pos hlast, if_neg (lt_irrefl n), if_neg (by omega), if_pos (by omega)]
        congr 1
        omega
      · rw [if_neg hlast]
        by_cases hin : oldLen ≤ j ∧ j < oldLen + n
        · rw [if_pos hin, if_pos (by omega)]
        · rw [if_neg hin, if_neg (by omega)]

theorem Holds.length_of_full {b : RingBuffer T} {l : List T} (h : b.Holds l) (hfull : b.size = b.capacity) :
    b.buffer.length = b.capacity := by
  have hleast := h.least
  have hsize := h.size
  have hpos : 0 < b.capacity := lt_of_lt_of_le (Nat.zero_lt_succ 15) hleast
  obtain ⟨i, hi, hlast⟩ := exists_distance h.head (Nat.sub_one_lt_of_lt hpos)
  have hslot := h.slots i hi
  have hi' : i < l.length := by omega
  rw [hlast, List.getElem?_eq_getElem hi'] at hslot
  have hlength := lt_length_of_slot hslot
  have hle := h.length
  omega

theorem Holds.grow {b : RingBuffer T} {l : List T} (h : b.Holds l) (hfull : b.size = b.capacity) : b.grow.Holds l := by
  have hlength := h.length_of_full hfull
  have hlen : (b.buffer ++ List.replicate b.buffer.length none).length = b.capacity * 2 := by
    rw [List.length_append, List.length_replicate, hlength]
    omega
  obtain ⟨hmoved, hslots⟩ := grow_loop _ hlen h.head.le
  have hhead := h.head
  have hfits := h.fits
  have hleast := h.least
  have hcapacity : b.grow.capacity = b.capacity * 2 := by rw [← hlength]; rfl
  have hbuffer : b.grow.buffer.length = b.capacity * 2 := by
    change List.length (List.foldl _ _ _) = _
    rw [hlength] at hmoved ⊢
    exact hmoved
  refine ⟨by rw [hbuffer, hcapacity], fun _ => by rw [hbuffer, hcapacity], by rw [hcapacity]; omega, ?_, h.size,
    by rw [hcapacity]; omega, fun i hi => ?_⟩
  · rw [hcapacity]
    change b.head < _
    omega
  · rw [hcapacity] at hi ⊢
    change slot (List.foldl _ _ _) ((b.head + i) % (b.capacity * 2)) = l[i]?
    rw [hlength] at hslots ⊢
    rw [hslots, wrap (by omega) (by omega), slot_append_replicate, slot_append_replicate]
    have hpast : b.capacity ≤ i → l[i]? = none := fun hge => List.getElem?_eq_none (by omega)
    by_cases hw : b.head + i < b.capacity * 2
    · rw [if_pos hw, if_neg (by omega)]
      by_cases hin : i < b.capacity
      · rw [← h.slots i hin, wrap hhead (by omega)]
        by_cases hlow : b.head + i < b.capacity
        · rw [if_neg (by omega), if_pos hlow]
        · rw [if_pos (by omega), if_neg hlow]
      · rw [if_neg (by omega), hpast (not_lt.mp hin)]
        unfold slot
        rw [List.getD_eq_getElem?_getD, List.getElem?_eq_none (by omega)]
        rfl
    · rw [if_neg hw, if_pos (by omega), hpast (by omega)]

theorem Represents.grow {b : RingBuffer T} {l : List T} (h : b.Represents l) (hfull : b.size = b.capacity) :
    b.grow.Represents l := by
  refine ⟨h.toHolds.grow hfull, ?_⟩
  obtain ⟨k, hk⟩ := h.capacity
  refine ⟨k + 1, ?_⟩
  change b.buffer.length * 2 = _
  rw [h.length_of_full hfull, hk, pow_succ, mul_assoc]

theorem Holds.put {b : RingBuffer T} {l : List T} (h : b.Holds l) (hroom : l.length < b.capacity) (value : T) :
    RingBuffer.Holds
      { b with buffer := assign b.buffer ((b.head + b.size) % b.capacity) (some value), size := b.size + 1 }
      (l ++ [value]) := by
  have hhead := h.head
  have hlength := h.length
  have hlast : (b.head + b.size) % b.capacity < b.capacity := Nat.mod_lt _ (by omega)
  refine ⟨?_, fun hw => ?_, h.least, hhead, by simp [h.size], by simp; omega, fun i hi => ?_⟩
  · change (assign _ _ _).length ≤ b.capacity
    rw [length_assign]
    omega
  · change (assign _ _ _).length = b.capacity
    rw [length_assign, h.whole hw]
    omega
  · change slot (assign _ _ _) ((b.head + i) % b.capacity) = _
    change i < b.capacity at hi
    rw [slot_assign, h.size, wrap hhead hroom.le, wrap hhead hi.le]
    rcases lt_trichotomy i l.length with hlt | rfl | hgt
    · rw [if_neg (by split <;> split <;> omega), ← wrap hhead hi.le, h.slots i hi, List.getElem?_append_left hlt]
    · rw [if_pos rfl]
      simp
    · rw [if_neg (by split <;> split <;> omega), ← wrap hhead hi.le, h.slots i hi, List.getElem?_eq_none (by omega),
        List.getElem?_eq_none (by simp; omega)]

theorem Holds.push {b : RingBuffer T} {l : List T} (h : b.Holds l) (value : T) : (b.push value).Holds (l ++ [value]) := by
  have hfits := h.fits
  have hsize := h.size
  have hleast := h.least
  unfold RingBuffer.push
  by_cases hfull : b.size = b.capacity
  · rw [if_pos hfull]
    refine (h.grow hfull).put ?_ value
    change l.length < b.buffer.length * 2
    rw [h.length_of_full hfull]
    have : MIN_CAPACITY = 16 := rfl
    omega
  · rw [if_neg hfull]
    exact h.put (by omega) value

theorem Holds.push_capacity {b : RingBuffer T} {l : List T} (h : b.Holds l) (hroom : l.length < b.capacity) (value : T) :
    (b.push value).capacity = b.capacity ∧ (b.push value).head = b.head := by
  have hsize := h.size
  unfold RingBuffer.push
  rw [if_neg (by omega)]
  exact ⟨rfl, rfl⟩

theorem Represents.push {b : RingBuffer T} {l : List T} (h : b.Represents l) (value : T) :
    (b.push value).Represents (l ++ [value]) := by
  refine ⟨h.toHolds.push value, ?_⟩
  unfold RingBuffer.push
  by_cases hfull : b.size = b.capacity
  · rw [if_pos hfull]
    exact (h.grow hfull).capacity
  · rw [if_neg hfull]
    exact h.capacity

/-! ## Shrinking -/

/-- The loop of `#shrink`: what is above the new end is moved down. -/
theorem shrink_loop (buffer : List (Option T)) {newLen left n : ℕ} (hleft : newLen ≤ left)
    (hn : left + n ≤ buffer.length) :
    let moved := (List.range' left n).foldl (fun buffer i => assign buffer (i - newLen) (slot buffer i)) buffer
    moved.length = buffer.length ∧ ∀ j, slot moved j =
      if left ≤ j + newLen ∧ j + newLen < left + n then slot buffer (j + newLen) else slot buffer j := by
  induction n with
  | zero =>
    refine ⟨rfl, fun j => ?_⟩
    rw [if_neg (by omega)]
    rfl
  | succ n ih =>
    obtain ⟨hlength, hslots⟩ := ih (by omega)
    simp only [List.range'_concat, one_mul, List.foldl_append, List.foldl_cons, List.foldl_nil]
    refine ⟨by rw [length_assign, hlength]; omega, fun j => ?_⟩
    rw [slot_assign, hslots, hslots]
    by_cases hj : j + newLen = left + n
    · have hat : left + n - newLen = j := by omega
      -- the slot that is read has not been written before
      have hfresh : ¬ (left ≤ left + n + newLen ∧ left + n + newLen < left + n) := by omega
      rw [if_pos hat, if_neg hfresh, if_pos ⟨by omega, by omega⟩, hj]
    · have hat : left + n - newLen ≠ j := by omega
      rw [if_neg hat]
      by_cases hin : left ≤ j + newLen ∧ j + newLen < left + n
      · rw [if_pos hin, if_pos (by omega)]
      · rw [if_neg hin, if_neg (by omega)]

theorem slot_take (buffer : List (Option T)) {n i : ℕ} (h : i < n) : slot (buffer.take n) i = slot buffer i := by
  unfold slot
  rw [List.getD_eq_getElem?_getD, List.getD_eq_getElem?_getD, List.getElem?_take_of_lt h]

theorem shrink_slots {b : RingBuffer T} {newLen : ℕ} (hnewLen : max MIN_CAPACITY (b.buffer.length / 2) = newLen)
    (hle : newLen ≤ b.buffer.length) :
    b.shrink.buffer.length = newLen ∧ ∀ j < newLen, slot b.shrink.buffer j =
      if max newLen b.head ≤ j + newLen ∧ j + newLen < min (b.head + b.size) b.buffer.length then
        slot b.buffer (j + newLen) else slot b.buffer j := by
  obtain ⟨n, hn⟩ : ∃ n, n = min (b.head + b.size) b.buffer.length - max newLen b.head := ⟨_, rfl⟩
  have hloop : (List.range' (max newLen b.head) n) = [] ∨ max newLen b.head + n ≤ b.buffer.length := by
    cases n with
    | zero => exact .inl rfl
    | succ n => exact .inr (by omega)
  obtain ⟨moved, hmoved⟩ : ∃ moved, moved = (List.range' (max newLen b.head) n).foldl
      (fun buffer i => assign buffer (i - newLen) (slot buffer i)) b.buffer := ⟨_, rfl⟩
  have hslots : moved.length = b.buffer.length ∧ ∀ j, slot moved j =
        if max newLen b.head ≤ j + newLen ∧ j + newLen < max newLen b.head + n then slot b.buffer (j + newLen)
        else slot b.buffer j := by
    rcases hloop with hnil | hfit
    · have hzero : n = 0 := by simpa using hnil
      subst hzero
      rw [hmoved]
      refine ⟨rfl, fun j => ?_⟩
      rw [if_neg (by omega)]
      rfl
    · rw [hmoved]
      exact shrink_loop b.buffer (le_max_left _ _) hfit
  obtain ⟨hlength, hslots⟩ := hslots
  have hbuffer : b.shrink.buffer = moved.take newLen := by
    unfold RingBuffer.shrink
    simp only [hnewLen, ← hn, ← hmoved]
    rw [hlength, Nat.sub_eq_zero_of_le hle, List.replicate_zero, List.append_nil]
  refine ⟨by rw [hbuffer, List.length_take, hlength]; omega, fun j hj => ?_⟩
  rw [hbuffer, slot_take _ hj, hslots]
  by_cases hin : max newLen b.head ≤ j + newLen ∧ j + newLen < min (b.head + b.size) b.buffer.length
  · rw [if_pos (by omega), if_pos hin]
  · rw [if_neg (by omega), if_neg hin]

/-- **Shrinking keeps the elements if the capacity is twice what is left of it.** -/
theorem Holds.shrink {b : RingBuffer T} {l : List T} (h : b.Holds l) {newLen : ℕ} (hcapacity : b.capacity = newLen * 2)
    (hmin : MIN_CAPACITY ≤ newLen) (hsmall : b.size ≤ newLen) : b.shrink.Holds l ∧ b.shrink.capacity = newLen := by
  have hhead := h.head
  have hsize := h.size
  have hsixteen : MIN_CAPACITY = 16 := rfl
  have hlen : b.buffer.length = newLen * 2 := by rw [h.whole (by omega), hcapacity]
  have hmax : max MIN_CAPACITY (b.buffer.length / 2) = newLen := by omega
  obtain ⟨hlength, hslots⟩ := shrink_slots hmax (by omega)
  have hnew : b.shrink.capacity = newLen := hmax
  have hshrunk : b.shrink.head = if newLen ≤ b.head then b.head - newLen else b.head := by
    unfold RingBuffer.shrink
    simp only [hmax]
  have hhead' : b.shrink.head < newLen := by
    rw [hshrunk]
    split <;> omega
  refine ⟨⟨by rw [hlength, hnew], fun _ => by rw [hlength, hnew], by rw [hnew]; exact hmin, by rw [hnew]; exact hhead',
    hsize, by rw [hnew]; omega, fun i hi => ?_⟩, hnew⟩
  rw [hnew] at hi ⊢
  have hpast : b.size ≤ i → l[i]? = none ∧ l[i + newLen]? = none := fun hge =>
    ⟨List.getElem?_eq_none (by omega), List.getElem?_eq_none (by omega)⟩
  -- the two slots that are one in the new array are at distances `i` and `i + newLen`
  have hat : ∀ d < newLen * 2, ∀ j, (if b.head + d < newLen * 2 then b.head + d else b.head + d - newLen * 2) = j →
      slot b.buffer j = l[d]? := by
    intro d hd j hj
    rw [← hj, ← h.slots d (by omega), wrap hhead (by omega), hcapacity]
  rw [hslots _ (Nat.mod_lt _ (by omega)), wrap hhead' hi.le, hshrunk, hlen]
  by_cases hin : i < b.size
  · by_cases hupper : newLen ≤ b.head
    · rw [if_pos hupper]
      by_cases hw : b.head - newLen + i < newLen
      · rw [if_pos hw, if_pos (by omega)]
        exact hat i (by omega) _ (by split <;> omega)
      · rw [if_neg hw, if_neg (by omega)]
        exact hat i (by omega) _ (by split <;> omega)
    · rw [if_neg hupper]
      by_cases hw : b.head + i < newLen
      · rw [if_pos hw, if_neg (by omega)]
        exact hat i (by omega) _ (by split <;> omega)
      · rw [if_neg hw, if_pos (by omega)]
        exact hat i (by omega) _ (by split <;> omega)
  · obtain ⟨hnone, hnone'⟩ := hpast (not_lt.mp hin)
    rw [hnone]
    by_cases hupper : newLen ≤ b.head
    · rw [if_pos hupper]
      by_cases hw : b.head - newLen + i < newLen
      · rw [if_pos hw, if_neg (by omega), hat (i + newLen) (by omega) _ (by split <;> omega), hnone']
      · rw [if_neg hw, if_neg (by omega), hat i (by omega) _ (by split <;> omega), hnone]
    · rw [if_neg hupper]
      by_cases hw : b.head + i < newLen
      · rw [if_pos hw, if_neg (by omega), hat i (by omega) _ (by split <;> omega), hnone]
      · rw [if_neg hw, if_neg (by omega), hat (i + newLen) (by omega) _ (by split <;> omega), hnone']

/-! ## Shifting, deleting and draining -/

theorem Holds.shift_nil {b : RingBuffer T} (h : b.Holds []) : b.shift = (none, b) := if_pos h.size

/-- A shift, before the array is shrunk. -/
def advance (b : RingBuffer T) : RingBuffer T :=
  { b with buffer := assign b.buffer b.head none, head := (b.head + 1) % b.capacity, size := b.size - 1 }

theorem Holds.advance {b : RingBuffer T} {x : T} {l : List T} (h : b.Holds (x :: l)) :
    slot b.buffer b.head = some x ∧ b.advance.Holds l := by
  have hhead := h.head
  have hfits := h.fits
  have hsize := h.size
  have hleast := h.least
  have hle := h.length
  have hsixteen : MIN_CAPACITY = 16 := rfl
  rw [List.length_cons] at hfits hsize
  have hfirst : slot b.buffer b.head = some x := by
    have hslot := h.slots 0 (by omega)
    rwa [Nat.add_zero, Nat.mod_eq_of_lt hhead] at hslot
  have hlen : (assign b.buffer b.head none).length = b.buffer.length := by
    have hlt := lt_length_of_slot hfirst
    rw [length_assign]
    omega
  refine ⟨hfirst, by change (assign _ _ _).length ≤ _; rw [hlen]; exact hle, fun hw => ?_, hleast,
    Nat.mod_lt _ (by omega), ?_, ?_, fun i hi => ?_⟩
  · change (assign _ _ _).length = _
    rw [hlen]
    exact h.whole hw
  · change b.size - 1 = _
    omega
  · change l.length ≤ b.capacity
    omega
  · change i < b.capacity at hi
    change slot (assign _ _ _) (((b.head + 1) % b.capacity + i) % b.capacity) = _
    rw [Nat.mod_add_mod, add_assoc, Nat.add_comm 1 i, slot_assign]
    by_cases hlast : i + 1 = b.capacity
    · rw [hlast, Nat.add_mod_right, Nat.mod_eq_of_lt hhead, if_pos rfl, List.getElem?_eq_none (by omega)]
    · rw [if_neg, h.slots (i + 1) (by omega), List.getElem?_cons_succ]
      rw [wrap hhead (by omega)]
      split <;> omega

theorem Holds.shift_eq {b : RingBuffer T} {x : T} {l : List T} (h : b.Holds (x :: l)) :
    b.shift = (some x, if 0 < l.length ∧ l.length < b.capacity / 4 ∧ MIN_CAPACITY < b.capacity then b.advance.shrink
      else b.advance) := by
  have hsize := h.size
  rw [List.length_cons] at hsize
  have hrest : b.size - 1 = l.length := by omega
  unfold RingBuffer.shift
  rw [if_neg (by omega), h.advance.1]
  simp only [hrest, RingBuffer.advance]

theorem Represents.shift_nil {b : RingBuffer T} (h : b.Represents []) : b.shift = (none, b) := h.toHolds.shift_nil

theorem Represents.shift_cons {b : RingBuffer T} {x : T} {l : List T} (h : b.Represents (x :: l)) :
    ∃ b', b.shift = (some x, b') ∧ b'.Represents l := by
  rw [h.shift_eq]
  have hadvance := h.toHolds.advance.2
  have hsixteen : MIN_CAPACITY = 16 := rfl
  split
  · next hsmall =>
    obtain ⟨k, hk⟩ := h.capacity
    obtain ⟨k, rfl⟩ : ∃ k', k = k' + 1 := by
      cases k with
      | zero => rw [pow_zero, mul_one] at hk; omega
      | succ k => exact ⟨k, rfl⟩
    have hcapacity : b.advance.capacity = MIN_CAPACITY * 2 ^ k * 2 := by
      change b.capacity = _
      rw [hk, pow_succ, mul_assoc]
    have hmin : MIN_CAPACITY ≤ MIN_CAPACITY * 2 ^ k := Nat.le_mul_of_pos_right _ (Nat.two_pow_pos k)
    obtain ⟨hshrink, hnew⟩ := hadvance.shrink hcapacity hmin (by
      rw [hadvance.size]
      change b.capacity = _ at hcapacity
      omega)
    exact ⟨_, rfl, hshrink, k, hnew⟩
  · exact ⟨_, rfl, hadvance, h.capacity⟩

theorem holds_of_front {b : RingBuffer T} (hleast : MIN_CAPACITY ≤ b.capacity) {l : List T}
    (hfits : l.length ≤ b.capacity) :
    RingBuffer.Holds
      { b with buffer := l.map some ++ List.replicate (b.capacity - l.length) none, head := 0, size := l.length } l := by
  have hlen : (l.map some ++ List.replicate (b.capacity - l.length) none).length = b.capacity := by
    rw [List.length_append, List.length_map, List.length_replicate]
    omega
  refine ⟨hlen.le, fun _ => hlen, hleast, lt_of_lt_of_le (Nat.zero_lt_succ 15) hleast, rfl, hfits, fun i hi => ?_⟩
  change slot (l.map some ++ _) ((0 + i) % b.capacity) = l[i]?
  change i < b.capacity at hi
  rw [slot_append_replicate, Nat.zero_add, Nat.mod_eq_of_lt hi, slot, List.getD_eq_getElem?_getD, List.getElem?_map]
  cases l[i]? <;> rfl

theorem Holds.drain {b : RingBuffer T} {l : List T} (h : b.Holds l) : b.drain.1 = l.map some ∧ b.drain.2.Holds [] :=
  ⟨h.elements, holds_of_front (b := b) h.least (l := []) (Nat.zero_le _)⟩

theorem Represents.drain {b : RingBuffer T} {l : List T} (h : b.Represents l) :
    b.drain.1 = l.map some ∧ b.drain.2.Represents [] :=
  ⟨h.toHolds.drain.1, h.toHolds.drain.2, h.capacity⟩

theorem Holds.delete {b : RingBuffer T} {l : List T} (h : b.Holds l) (isValue : Option T → Bool) :
    (b.delete isValue).1 = l.countP (fun x => isValue (some x)) ∧
      (b.delete isValue).2.Holds (l.filter fun x => !isValue (some x)) ∧ (b.delete isValue).2.capacity = b.capacity := by
  unfold RingBuffer.delete
  split
  · next hzero =>
    obtain rfl := List.eq_nil_of_length_eq_zero (h.size.symm.trans hzero)
    exact ⟨rfl, h, rfl⟩
  · have hkept : (b.elements.filter fun item => !isValue item) = (l.filter fun x => !isValue (some x)).map some := by
      rw [h.elements, List.filter_map]
      rfl
    have hcount := List.length_eq_countP_add_countP (fun x => isValue (some x)) (l := l)
    have hlength : (l.filter fun x => !isValue (some x)).length = l.countP fun x => ¬ isValue (some x) = true := by
      rw [List.countP_eq_length_filter]
      congr 1
      exact List.filter_congr fun x _ => by simp
    dsimp only
    rw [hkept, List.length_map]
    refine ⟨?_, holds_of_front h.least ((List.length_filter_le _ _).trans h.fits), rfl⟩
    rw [h.size, hlength]
    omega

theorem Represents.delete {b : RingBuffer T} {l : List T} (h : b.Represents l) (isValue : Option T → Bool) :
    (b.delete isValue).1 = l.countP (fun x => isValue (some x)) ∧
      (b.delete isValue).2.Represents (l.filter fun x => !isValue (some x)) := by
  obtain ⟨hcount, hkept, hcapacity⟩ := h.toHolds.delete isValue
  exact ⟨hcount, hkept, by rw [hcapacity]; exact h.capacity⟩

end RingBuffer

end ZeroSync
