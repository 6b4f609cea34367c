/-
Calls of a `RingBuffer` against those of a list that is a queue.

From the default capacity, and from any that is it doubled over and over, every run
of calls returns what the queue does (`Represents.outputs_eq`). From any other
capacity shrinking sooner or later takes off more or less than half, and loses an
element that has wrapped around (`outputs_eq_iff`).
-/
import ZeroSync.RingBuffer

namespace ZeroSync.RingBuffer

inductive Call (T : Type)
  | push (value : T)
  | shift
  | delete (value : T)
  | drain
  deriving DecidableEq

/-- What a call returns. -/
inductive Output (T : Type)
  | pushed
  | shifted (value : Option T)
  | deleted (count : ℕ)
  | drained (values : List (Option T))
  deriving DecidableEq

variable {T : Type} [BEq T]

/-- A call; elements are compared by `===`. -/
def call (b : RingBuffer T) : Call T → Output T × RingBuffer T
  | .push value => (.pushed, b.push value)
  | .shift => (.shifted b.shift.1, b.shift.2)
  | .delete value => (.deleted (b.delete (· == some value)).1, (b.delete (· == some value)).2)
  | .drain => (.drained b.drain.1, b.drain.2)

/-- What the calls of a run return, each with the size after it. -/
def outputs (b : RingBuffer T) : List (Call T) → List (Output T × ℕ)
  | [] => []
  | c :: calls => ((b.call c).1, (b.call c).2.size) :: (b.call c).2.outputs calls

/-- A call of a queue that is a list. -/
def queueCall (l : List T) : Call T → Output T × List T
  | .push value => (.pushed, l ++ [value])
  | .shift => (.shifted l.head?, l.tail)
  | .delete value => (.deleted (l.countP (· == value)), l.filter fun x => !x == value)
  | .drain => (.drained (l.map some), [])

def queueOutputs (l : List T) : List (Call T) → List (Output T × ℕ)
  | [] => []
  | c :: calls => ((queueCall l c).1, (queueCall l c).2.length) :: queueOutputs (queueCall l c).2 calls

/-! ## Capacities that halve evenly -/

theorem Represents.call {b : RingBuffer T} {l : List T} (h : b.Represents l) (c : Call T) :
    (b.call c).1 = (queueCall l c).1 ∧ (b.call c).2.Represents (queueCall l c).2 := by
  cases c with
  | push value => exact ⟨rfl, h.push value⟩
  | shift =>
    cases l with
    | nil =>
      unfold RingBuffer.call
      rw [h.shift_nil]
      exact ⟨rfl, h⟩
    | cons x l =>
      obtain ⟨b', hshift, hrest⟩ := h.shift_cons
      unfold RingBuffer.call
      rw [hshift]
      exact ⟨rfl, hrest⟩
  | delete value =>
    obtain ⟨hcount, hkept⟩ := h.delete (· == some value)
    exact ⟨congrArg Output.deleted hcount, hkept⟩
  | drain =>
    obtain ⟨hall, hempty⟩ := h.drain
    exact ⟨congrArg Output.drained hall, hempty⟩

theorem Represents.outputs_eq {b : RingBuffer T} {l : List T} (h : b.Represents l) (calls : List (Call T)) :
    b.outputs calls = queueOutputs l calls := by
  induction calls generalizing b l with
  | nil => rfl
  | cons c calls ih =>
    obtain ⟨hout, hnext⟩ := h.call c
    rw [outputs, queueOutputs, hout, hnext.size, ih hnext]

/-! ## Capacities that do not -/

/-- From here on a ring buffer returns what a queue does. -/
def Agrees (b : RingBuffer T) (l : List T) : Prop := ∀ calls, b.outputs calls = queueOutputs l calls

theorem Agrees.call {b : RingBuffer T} {l : List T} (h : b.Agrees l) (c : Call T) :
    (b.call c).1 = (queueCall l c).1 ∧ (b.call c).2.Agrees (queueCall l c).2 := by
  have hhead (calls : List (Call T)) := List.cons.inj (h (c :: calls))
  exact ⟨congrArg Prod.fst (hhead []).1, fun calls => (hhead calls).2⟩

/-- An empty ring buffer at some place of its run, where it agrees with the queue so far. -/
structure Idle (b : RingBuffer T) (capacity head : ℕ) : Prop where
  holds : b.Holds []
  agrees : b.Agrees []
  capacity_eq : b.capacity = capacity
  head_eq : b.head = head

theorem Idle.next {b : RingBuffer T} {capacity head : ℕ} (h : b.Idle capacity head) (x : T) :
    ∃ b' : RingBuffer T, b'.Idle capacity ((head + 1) % capacity) := by
  have hleast := h.holds.least
  have hsixteen : MIN_CAPACITY = 16 := rfl
  obtain ⟨hcapacity, hhead⟩ := h.holds.push_capacity (by simp; omega) x
  have hpushed : (b.push x).Holds [x] := h.holds.push x
  have hshift := hpushed.shift_eq
  rw [if_neg (by simp)] at hshift
  have hagrees := ((h.agrees.call (.push x)).2.call .shift).2
  change (b.push x).shift.2.Agrees [] at hagrees
  rw [hshift] at hagrees
  refine ⟨_, hpushed.advance.2, hagrees, hcapacity.trans h.capacity_eq, ?_⟩
  change ((b.push x).head + 1) % (b.push x).capacity = _
  rw [hcapacity, hhead, h.capacity_eq, h.head_eq]

theorem Idle.reach {b : RingBuffer T} {capacity head : ℕ} (h : b.Idle capacity head) (x : T) {target : ℕ}
    (htarget : target < capacity) : ∃ b' : RingBuffer T, b'.Idle capacity target := by
  have hmoves : ∀ n, ∃ b' : RingBuffer T, b'.Idle capacity ((head + n) % capacity) := by
    intro n
    induction n with
    | zero =>
      have hlt := h.holds.head
      rw [h.head_eq, h.capacity_eq] at hlt
      rw [Nat.add_zero, Nat.mod_eq_of_lt hlt]
      exact ⟨b, h⟩
    | succ n ih =>
      obtain ⟨b', hb'⟩ := ih
      obtain ⟨b'', hb''⟩ := hb'.next x
      rw [Nat.mod_add_mod, Nat.add_assoc] at hb''
      exact ⟨b'', hb''⟩
  have hlt := h.holds.head
  rw [h.head_eq, h.capacity_eq] at hlt
  obtain ⟨n, -, hn⟩ := exists_distance hlt htarget
  rw [← hn]
  exact hmoves n

theorem Idle.halve {b : RingBuffer T} {m head : ℕ} (h : b.Idle (m * 2) head) (hm : MIN_CAPACITY ≤ m) (x : T) :
    ∃ (b' : RingBuffer T) (head' : ℕ), b'.Idle m head' := by
  have hsixteen : MIN_CAPACITY = 16 := rfl
  have hcapacity := h.capacity_eq
  have hone : (b.push x).Holds [x] := h.holds.push x
  obtain ⟨hcapacity₁, -⟩ := h.holds.push_capacity (by simp; omega) x
  have htwo : ((b.push x).push x).Holds [x, x] := hone.push x
  obtain ⟨hcapacity₂, -⟩ := hone.push_capacity (by simp; omega) x
  have hcapacity₂ : ((b.push x).push x).capacity = m * 2 := by rw [hcapacity₂, hcapacity₁, hcapacity]
  have hshift := htwo.shift_eq
  rw [if_pos ⟨by simp, by simp; omega, by omega⟩] at hshift
  have hadvanced : ((b.push x).push x).advance.Holds [x] := htwo.advance.2
  obtain ⟨hshrunk, hhalf⟩ := hadvanced.shrink hcapacity₂ hm (by rw [hadvanced.size]; simp; omega)
  have hlast := hshrunk.shift_eq
  rw [if_neg (by simp)] at hlast
  have hagrees := ((((h.agrees.call (.push x)).2.call (.push x)).2.call .shift).2.call .shift).2
  change ((b.push x).push x).shift.2.shift.2.Agrees [] at hagrees
  rw [hshift, hlast] at hagrees
  exact ⟨_, _, hshrunk.advance.2, hagrees, hhalf, rfl⟩

theorem halves_to {c : ℕ} (hc : MIN_CAPACITY ≤ c) :
    (∃ k, c = MIN_CAPACITY * 2 ^ k) ∨ ∃ k d, c = d * 2 ^ k ∧ MIN_CAPACITY < d ∧ (d < MIN_CAPACITY * 2 ∨ d % 2 = 1) := by
  have hsixteen : MIN_CAPACITY = 16 := rfl
  induction c using Nat.strong_induction_on with
  | _ c ih =>
    by_cases heven : MIN_CAPACITY * 2 ≤ c ∧ c % 2 = 0
    · have hhalf : c / 2 * 2 = c := by omega
      rcases ih (c / 2) (by omega) (by omega) with ⟨k, hk⟩ | ⟨k, d, hk, hd⟩
      · exact .inl ⟨k + 1, by rw [pow_succ, ← mul_assoc, ← hk, hhalf]⟩
      · exact .inr ⟨k + 1, d, by rw [pow_succ, ← mul_assoc, ← hk, hhalf], hd⟩
    · by_cases hleast : c = MIN_CAPACITY
      · exact .inl ⟨0, by rw [hleast]; rfl⟩
      · exact .inr ⟨0, c, by simp, by omega, by omega⟩

theorem not_idle_of_uneven {b : RingBuffer T} {d : ℕ} (hd : MIN_CAPACITY < d) (huneven : d < MIN_CAPACITY * 2 ∨ d % 2 = 1)
    (x : T) : ¬ b.Idle d (d - 2) := by
  intro h
  have hsixteen : MIN_CAPACITY = 16 := rfl
  obtain ⟨b₃, hb₃⟩ : ∃ b₃, b₃ = ((b.push x).push x).push x := ⟨_, rfl⟩
  -- three elements, the last of them at the start of the array
  have hone : (b.push x).Holds [x] := h.holds.push x
  obtain ⟨hcapacity₁, hhead₁⟩ := h.holds.push_capacity (by simp; have := h.holds.least; omega) x
  have htwo : ((b.push x).push x).Holds [x, x] := hone.push x
  obtain ⟨hcapacity₂, hhead₂⟩ := hone.push_capacity (by simp; have := hone.least; omega) x
  have hthree : b₃.Holds [x, x, x] := hb₃ ▸ htwo.push x
  obtain ⟨hcapacity₃, hhead₃⟩ := htwo.push_capacity (by simp; have := htwo.least; omega) x
  have hcapacity : b₃.capacity = d := by rw [hb₃, hcapacity₃, hcapacity₂, hcapacity₁, h.capacity_eq]
  have hhead : b₃.head = d - 2 := by rw [hb₃, hhead₃, hhead₂, hhead₁, h.head_eq]
  -- one shift leaves two, at the two ends of the array
  obtain ⟨a, ha⟩ : ∃ a, a = b₃.advance := ⟨_, rfl⟩
  have hrest : a.Holds [x, x] := ha ▸ hthree.advance.2
  have hcapacity' : a.capacity = d := by rw [ha]; exact hcapacity
  have hhead' : a.head = d - 1 := by
    rw [ha]
    change (b₃.head + 1) % b₃.capacity = _
    rw [hhead, hcapacity, Nat.mod_eq_of_lt (by omega)]
    omega
  have hshift := hthree.shift_eq
  rw [hcapacity, if_pos ⟨by simp, by simp; omega, hd⟩, ← ha] at hshift
  have hagrees := ((((h.agrees.call (.push x)).2.call (.push x)).2.call (.push x)).2.call .shift).2
  change (((b.push x).push x).push x).shift.2.Agrees [x, x] at hagrees
  rw [← hb₃, hshift] at hagrees
  -- which shrinking brings together only if it halves the array
  have hlen : a.buffer.length = d := by rw [hrest.whole (by omega), hcapacity']
  have hsize : a.size = 2 := hrest.size
  obtain ⟨newLen, hnewLen⟩ : ∃ newLen, max MIN_CAPACITY (a.buffer.length / 2) = newLen := ⟨_, rfl⟩
  obtain ⟨hshrunk, hslots⟩ := shrink_slots hnewLen (by omega)
  have hshrink : a.shrink.head = d - 1 - newLen ∧ a.shrink.capacity = newLen ∧ a.shrink.size = 2 := by
    unfold RingBuffer.shrink
    simp only [hnewLen, hhead', hsize, and_self, and_true]
    rw [if_pos (by omega)]
  have hvalue : a.shrink.shift.1 = slot a.shrink.buffer (d - 1 - newLen) := by
    unfold RingBuffer.shift
    rw [if_neg (by rw [hshrink.2.2]; decide), hshrink.1]
  have hfirst := (hagrees.call .shift).1
  change Output.shifted a.shrink.shift.1 = .shifted (some x) at hfirst
  injection hfirst with hfirst
  rcases Nat.lt_or_ge d (MIN_CAPACITY * 2) with hsmall | hlarge
  · have hsecond := ((hagrees.call .shift).2.call .shift).1
    change Output.shifted a.shrink.shift.2.shift.1 = .shifted (some x) at hsecond
    injection hsecond with hsecond
    obtain ⟨i, hi, hat⟩ := exists_distance hrest.head (j := d - 16) (by omega)
    have hempty : slot a.buffer (d - 16) = none := by
      rw [← hat, hrest.slots i hi]
      refine List.getElem?_eq_none ?_
      rw [hhead', hcapacity'] at hat
      rw [hcapacity'] at hi
      rw [wrap (by omega) hi.le] at hat
      simp only [List.length_cons, List.length_nil]
      split at hat <;> omega
    have hnew : newLen = 16 := by omega
    have hnext : a.shrink.shift.2 = a.shrink.advance := by
      unfold RingBuffer.shift
      rw [if_neg (by rw [hshrink.2.2]; decide)]
      dsimp only
      rw [if_neg (fun hc => by have hlt := hc.2.2; rw [hshrink.2.1] at hlt; omega)]
      rfl
    have hat' : a.shrink.advance.head = d - 16 := by
      change (a.shrink.head + 1) % a.shrink.capacity = _
      rw [hshrink.1, hshrink.2.1, hnew, Nat.mod_eq_of_lt (by omega)]
      omega
    have hlast : a.shrink.advance.shift.1 = none := by
      have hleft : a.shrink.advance.size ≠ 0 := by
        change a.shrink.size - 1 ≠ 0
        rw [hshrink.2.2]
        decide
      unfold RingBuffer.shift
      rw [if_neg hleft]
      change slot (assign a.shrink.buffer a.shrink.head none) a.shrink.advance.head = none
      rw [hat', hshrink.1, slot_assign, hslots _ (by omega), if_neg (by omega), if_neg (by omega), hempty]
    rw [hnext] at hsecond
    rw [hlast] at hsecond
    cases hsecond
  · have hlost : slot a.shrink.buffer (d - 1 - newLen) = none := by
      unfold slot
      rw [List.getD_eq_getElem?_getD, List.getElem?_eq_none (by omega)]
      rfl
    rw [hvalue, hlost] at hfirst
    cases hfirst

/-- **A ring buffer is a queue, in every run, just if halving its initial capacity over
and over ends at 16.** -/
theorem outputs_eq_iff [Inhabited T] (initialCapacity : ℕ) :
    (∀ calls : List (Call T), (ofCapacity initialCapacity).outputs calls = queueOutputs [] calls) ↔
      ∃ k, max MIN_CAPACITY initialCapacity = MIN_CAPACITY * 2 ^ k := by
  refine ⟨fun hall => ?_, fun hpower calls => ?_⟩
  · rcases halves_to (le_max_left MIN_CAPACITY initialCapacity) with hpower | ⟨k, d, hc, hd, huneven⟩
    · exact hpower
    · exfalso
      have hstart : ∃ (b : RingBuffer T) (head : ℕ), b.Idle (d * 2 ^ k) head :=
        ⟨ofCapacity initialCapacity, 0, ofCapacity_holds _, hall, hc, rfl⟩
      have hdown : ∃ (b : RingBuffer T) (head : ℕ), b.Idle d head := by
        clear hc
        induction k with
        | zero => simpa using hstart
        | succ k ih =>
          obtain ⟨b, head, hb⟩ := hstart
          rw [pow_succ, ← mul_assoc] at hb
          exact ih (hb.halve (hd.le.trans (Nat.le_mul_of_pos_right _ (Nat.two_pow_pos k))) default)
      obtain ⟨b, head, hb⟩ := hdown
      obtain ⟨b', hb'⟩ := hb.reach default (show d - 2 < d by omega)
      exact not_idle_of_uneven hd huneven default hb'
  · exact Represents.outputs_eq ⟨ofCapacity_holds initialCapacity, hpower⟩ calls

/-- Of capacity 17, what is pushed when the head is at its end. -/
theorem outputs_ne_of_seventeen :
    let calls : List (Call ℕ) := (List.replicate 15 [.push 0, .shift]).flatten ++
      [.push 1, .push 2, .push 3, .shift, .shift, .shift]
    (ofCapacity 17).outputs calls ≠ queueOutputs [] calls := by
  decide

end ZeroSync.RingBuffer
