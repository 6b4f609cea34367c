/-
Binary search in a sorted list: where an element that compares equal to the
target stands, or where the target would have to stand (`search_located`).

The search goes by a choice of the middle and by what a probe of each place
says, so that it can be followed step for step whatever way it is written.
-/
import ZeroSync.SortedList

namespace BinarySearch

/-- What a search returns: a place found, or the place to insert at. -/
inductive Position
  | found (i : ℕ)
  | missing (i : ℕ)
  deriving DecidableEq

/-- The place itself. -/
def Position.index : Position → ℕ
  | found i | missing i => i

/-- Whether the target is there. -/
def Position.isFound : Position → Bool
  | found _ => true
  | missing _ => false

/-- The place in a list that has `n` more elements in front. -/
def Position.shift (n : ℕ) : Position → Position
  | found i => found (n + i)
  | missing i => missing (n + i)

@[simp] theorem Position.index_shift (n : ℕ) (p : Position) : (p.shift n).index = n + p.index := by
  cases p <;> rfl

@[simp] theorem Position.isFound_shift (n : ℕ) (p : Position) : (p.shift n).isFound = p.isFound := by
  cases p <;> rfl

/-- The loop, between `low` and `high`; `fuel` bounds the places between them. -/
def search (mid : ℕ → ℕ → ℕ) (probe : ℕ → Ordering) : ℕ → ℕ → ℕ → Position
  | 0, low, _ => .missing low
  | fuel + 1, low, high =>
    if low < high then
      match probe (mid low high) with
      | .lt => search mid probe fuel (mid low high + 1) high
      | .gt => search mid probe fuel low (mid low high)
      | .eq => .found (mid low high)
    else .missing low

variable {α β : Type*} {cmp : α → β → Ordering}

/-! ## A list at the length of its first part -/

theorem modify_length_append (a : List α) (x : α) (b : List α) (f : α → α) :
    (a ++ x :: b).modify a.length f = a ++ f x :: b := by
  induction a with
  | nil => rfl
  | cons y a ih => simp [ih]

theorem eraseIdx_length_append (a : List α) (x : α) (b : List α) :
    (a ++ x :: b).eraseIdx a.length = a ++ b := by
  induction a with
  | nil => rfl
  | cons y a ih => simp [ih]

theorem insertIdx_length_append (a : List α) (x : α) (b : List α) :
    (a ++ b).insertIdx a.length x = a ++ x :: b := by
  induction a with
  | nil => cases b <;> rfl
  | cons y a ih => simp [ih]

theorem getElem_length_append {a : List α} {x : α} {b : List α} {i : ℕ} (hi : i = a.length)
    (h : i < (a ++ x :: b).length) : (a ++ x :: b)[i] = x := by
  subst hi
  simp

theorem set_length_append (a : List α) (x y : α) (b : List α) :
    (a ++ y :: b).set a.length x = a ++ x :: b := by
  rw [List.set_append_right _ _ le_rfl, Nat.sub_self, List.set_cons_zero]

theorem insertIdx_append_left {a : List α} {i : ℕ} (h : i ≤ a.length) (x : α) (b : List α) :
    (a ++ b).insertIdx i x = a.insertIdx i x ++ b := by
  induction a generalizing i with
  | nil =>
    obtain rfl := Nat.le_zero.mp h
    rfl
  | cons y a ih =>
    cases i with
    | zero => rfl
    | succ i => simp [ih (Nat.le_of_succ_le_succ h)]

theorem insertIdx_append_right (a : List α) (i : ℕ) (x : α) (b : List α) :
    (a ++ b).insertIdx (a.length + i) x = a ++ b.insertIdx i x := by
  induction a with
  | nil => simp
  | cons y a ih => simp [Nat.add_right_comm, ih]

/-! ## The place of a target -/

/-- The place is that of the target: what is before it is less, what is after it is greater. -/
inductive Located (cmp : α → β → Ordering) (target : β) : List α → Position → Prop
  | found {a : List α} {x : α} {b : List α} : (∀ y ∈ a, cmp y target = .lt) → cmp x target = .eq →
      (∀ y ∈ b, cmp y target = .gt) → Located cmp target (a ++ x :: b) (.found a.length)
  | missing {a b : List α} : (∀ y ∈ a, cmp y target = .lt) → (∀ y ∈ b, cmp y target = .gt) →
      Located cmp target (a ++ b) (.missing a.length)

theorem Located.index_le {target : β} {l : List α} {p : Position} (h : Located cmp target l p) : p.index ≤ l.length := by
  cases h with
  | found => simp [Position.index]
  | missing => simp [Position.index]

theorem Located.lt_of_isFound {target : β} {l : List α} {p : Position} (h : Located cmp target l p)
    (hp : p.isFound = true) : p.index < l.length := by
  cases h with
  | found => simp [Position.index]
  | missing => cases hp

theorem Located.map {γ : Type*} {target : β} {f : γ → α} {l : List γ} {p : Position}
    (h : Located (fun x t => cmp (f x) t) target l p) : Located cmp target (l.map f) p := by
  have hlength (a : List γ) : (a.map f).length = a.length := List.length_map f
  cases h with
  | @found a x b ha hx hb =>
    rw [List.map_append, List.map_cons, ← hlength a]
    exact .found (List.forall_mem_map.mpr ha) hx (List.forall_mem_map.mpr hb)
  | @missing a b ha hb =>
    rw [List.map_append, ← hlength a]
    exact .missing (List.forall_mem_map.mpr ha) (List.forall_mem_map.mpr hb)

theorem Located.append_left {target : β} {a l : List α} {p : Position} (ha : ∀ y ∈ a, cmp y target = .lt)
    (h : Located cmp target l p) : Located cmp target (a ++ l) (p.shift a.length) := by
  cases h with
  | @found c x d hc hx hd =>
    rw [← List.append_assoc, Position.shift, ← List.length_append]
    exact .found (fun y hy => (List.mem_append.mp hy).elim (ha y) (hc y)) hx hd
  | @missing c d hc hd =>
    rw [← List.append_assoc, Position.shift, ← List.length_append]
    exact .missing (fun y hy => (List.mem_append.mp hy).elim (ha y) (hc y)) hd

theorem Located.append_right {target : β} {l b : List α} {p : Position} (hb : ∀ y ∈ b, cmp y target = .gt)
    (h : Located cmp target l p) : Located cmp target (l ++ b) p := by
  cases h with
  | @found c x d hc hx hd =>
    rw [List.append_assoc]
    exact .found hc hx fun y hy => (List.mem_append.mp hy).elim (hd y) (hb y)
  | @missing c d hc hd =>
    rw [List.append_assoc]
    exact .missing hc fun y hy => (List.mem_append.mp hy).elim (hd y) (hb y)

/-- Seen from an element that is not the target's, the place is on one side of it. -/
theorem Located.beside {target : β} {a b : List α} {x : α} {p : Position} (h : Located cmp target (a ++ x :: b) p)
    (hne : cmp x target ≠ .eq) :
    (cmp x target = .lt ∧ (∀ y ∈ a, cmp y target = .lt) ∧
      ∃ q, p = q.shift (a.length + 1) ∧ Located cmp target b q) ∨
    (cmp x target = .gt ∧ (∀ y ∈ b, cmp y target = .gt) ∧ Located cmp target a p) := by
  generalize hl : a ++ x :: b = l at h
  cases h with
  | @found c y d hc hy hd =>
    rcases List.append_eq_append_iff.mp hl with ⟨a', rfl, hx⟩ | ⟨c', rfl, hx⟩
    · cases a' with
      | nil =>
        obtain ⟨rfl, rfl⟩ := List.cons.inj hx
        exact absurd hy hne
      | cons x' a' =>
        obtain ⟨rfl, rfl⟩ := List.cons.inj hx
        refine .inl ⟨hc x (by simp), fun z hz => hc z (by simp [hz]), .found a'.length, ?_, ?_⟩
        · simp [Position.shift]; omega
        · exact .found (fun z hz => hc z (by simp [hz])) hy hd
    · cases c' with
      | nil =>
        obtain ⟨rfl, rfl⟩ := List.cons.inj hx
        exact absurd hy hne
      | cons y' c' =>
        obtain ⟨rfl, rfl⟩ := List.cons.inj hx
        exact .inr ⟨hd x (by simp), fun z hz => hd z (by simp [hz]), .found hc hy fun z hz => hd z (by simp [hz])⟩
  | @missing c d hc hd =>
    rcases List.append_eq_append_iff.mp hl with ⟨a', rfl, hx⟩ | ⟨c', rfl, hx⟩
    · cases a' with
      | nil =>
        obtain rfl : d = x :: b := hx.symm
        have hend : Located cmp target (a ++ [] ++ []) (.missing (a ++ []).length) := .missing hc (by simp)
        exact .inr ⟨hd x (by simp), fun z hz => hd z (by simp [hz]), by simpa using hend⟩
      | cons x' a' =>
        obtain ⟨rfl, rfl⟩ := List.cons.inj hx
        refine .inl ⟨hc x (by simp), fun z hz => hc z (by simp [hz]), .missing a'.length, ?_, ?_⟩
        · simp [Position.shift]; omega
        · exact .missing (fun z hz => hc z (by simp [hz])) hd
    · obtain rfl := hx
      exact .inr ⟨hd x (by simp), fun z hz => hd z (by simp [hz]), .missing hc fun z hz => hd z (by simp [hz])⟩

theorem Located.erase {target : β} {a b : List α} {x : α} {p : Position} (h : Located cmp target (a ++ x :: b) p)
    (hne : cmp x target ≠ .eq) : ∃ q, Located cmp target (a ++ b) q ∧ q.isFound = p.isFound ∧
      q.index = if a.length < p.index then p.index - 1 else p.index := by
  rcases h.beside hne with ⟨-, ha, q, rfl, hq⟩ | ⟨-, hb, hp⟩
  · refine ⟨q.shift a.length, hq.append_left ha, by simp, ?_⟩
    rw [Position.index_shift, Position.index_shift, if_pos (by omega)]
    omega
  · refine ⟨p, hp.append_right hb, rfl, ?_⟩
    rw [if_neg (by have := hp.index_le; omega)]

/-- The place when an element that is not the target's is replaced by one like it. -/
theorem Located.replace {target : β} {a b : List α} {x x' : α} {p : Position}
    (h : Located cmp target (a ++ x :: b) p) (hne : cmp x target ≠ .eq) (hx : cmp x' target = cmp x target) :
    Located cmp target (a ++ x' :: b) p := by
  rcases h.beside hne with ⟨hlt, ha, q, rfl, hq⟩ | ⟨hgt, hb, hp⟩
  · have hax : ∀ y ∈ a ++ [x'], cmp y target = .lt := by
      intro y hy
      rcases List.mem_append.mp hy with hy | hy
      · exact ha y hy
      · rw [List.mem_singleton.mp hy, hx, hlt]
    have hloc := hq.append_left hax
    rwa [List.append_assoc, List.singleton_append, List.length_append, List.length_singleton] at hloc
  · refine hp.append_right fun y hy => ?_
    rcases List.mem_cons.mp hy with rfl | hy
    · rw [hx, hgt]
    · exact hb y hy

theorem Located.at_end {target : β} {l : List α} {p : Position} (h : Located cmp target l p)
    (hp : p.index = l.length) : ∀ y ∈ l, cmp y target = .lt := by
  cases h with
  | @found c x d hc hx hd => simp [Position.index] at hp
  | @missing c d hc hd =>
    obtain rfl : d = [] := by simpa [Position.index] using hp
    simpa using hc

/-- A target that has its place at the start of the list is that of the head, or before all of it. -/
theorem Located.at_start {target : β} {l : List α} {p : Position} (h : Located cmp target l p) (hp : p.index = 0) :
    (∃ x d, l = x :: d ∧ cmp x target = .eq ∧ p = .found 0) ∨ (p = .missing 0 ∧ ∀ y ∈ l, cmp y target = .gt) := by
  cases h with
  | @found c x d hc hx hd =>
    obtain rfl : c = [] := by simpa [Position.index] using hp
    exact .inl ⟨x, d, rfl, hx, rfl⟩
  | @missing c d hc hd =>
    obtain rfl : c = [] := by simpa [Position.index] using hp
    exact .inr ⟨rfl, by simpa using hd⟩

theorem Located.of_head {target : β} {x : α} {l : List α} {p : Position} (h : Located cmp target (x :: l) p)
    (hx : cmp x target = .eq) : p = .found 0 := by
  generalize hl : x :: l = l' at h
  cases h with
  | @found c y d hc hy hd =>
    cases c with
    | nil => rfl
    | cons z c =>
      obtain ⟨rfl, -⟩ := List.cons.inj hl
      exact absurd (hx.symm.trans (hc x (by simp))) (by decide)
  | @missing c d hc hd =>
    cases c with
    | nil =>
      obtain rfl : d = x :: l := hl.symm
      exact absurd (hx.symm.trans (hd x (by simp))) (by decide)
    | cons z c =>
      obtain ⟨rfl, -⟩ := List.cons.inj hl
      exact absurd (hx.symm.trans (hc x (by simp))) (by decide)

/-- What a probe says of one place it says of all on one side. -/
structure Ascending (cmp : α → β → Ordering) (target : β) (l : List α) : Prop where
  lt : ∀ (i j : ℕ) (hi : i < j) (hj : j < l.length), (cmp l[j] target).isLE →
    cmp (l.get ⟨i, hi.trans hj⟩) target = .lt
  gt : ∀ (i j : ℕ) (hi : i < j) (hj : j < l.length), (cmp (l.get ⟨i, hi.trans hj⟩) target).isGE →
    cmp l[j] target = .gt

theorem Ascending.of_sorted {c : β → β → Ordering} [Std.TransCmp c] {f : α → β} {l : List α}
    (h : l.Pairwise fun a b => c (f a) (f b) = .lt) (target : β) : Ascending (fun a t => c (f a) t) target l := by
  constructor
  · intro i j hi hj hle
    exact Std.TransCmp.lt_of_lt_of_isLE (List.pairwise_iff_getElem.mp h i j (hi.trans hj) hj hi) hle
  · intro i j hi hj hge
    have hlt := List.pairwise_iff_getElem.mp h i j (hi.trans hj) hj hi
    have hle : (c target (f (l.get ⟨i, hi.trans hj⟩))).isLE := by
      refine SortedList.isLE_of_not_lt fun hlt' => ?_
      rw [hlt'] at hge
      cases hge
    exact Std.OrientedCmp.gt_of_lt (Std.TransCmp.lt_of_isLE_of_lt hle hlt)

theorem located_of_split {l : List α} {target : β} (i : ℕ) (hi : i ≤ l.length)
    (hlt : ∀ (j : ℕ) (hj : j < l.length), j < i → cmp l[j] target = .lt)
    (hgt : ∀ (j : ℕ) (hj : j < l.length), i ≤ j → cmp l[j] target = .gt) : Located cmp target l (.missing i) := by
  have hlen : (l.take i).length = i := List.length_take_of_le hi
  have hloc : Located cmp target (l.take i ++ l.drop i) (.missing (l.take i).length) := by
    refine .missing (fun y hy => ?_) (fun y hy => ?_)
    · obtain ⟨j, hj, rfl⟩ := List.getElem_of_mem hy
      rw [List.getElem_take]
      exact hlt j _ (by omega)
    · obtain ⟨j, hj, rfl⟩ := List.getElem_of_mem hy
      rw [List.getElem_drop]
      exact hgt (i + j) _ (by omega)
  rwa [List.take_append_drop, hlen] at hloc

theorem located_of_found {l : List α} {target : β} (h : Ascending cmp target l) (i : ℕ) (hi : i < l.length)
    (heq : cmp l[i] target = .eq) : Located cmp target l (.found i) := by
  have hlen : (l.take i).length = i := List.length_take_of_le hi.le
  have hloc : Located cmp target (l.take i ++ l[i] :: l.drop (i + 1)) (.found (l.take i).length) := by
    refine .found (fun y hy => ?_) heq (fun y hy => ?_)
    · obtain ⟨j, hj, rfl⟩ := List.getElem_of_mem hy
      rw [List.getElem_take]
      exact h.lt j i (by omega) hi (by rw [heq]; rfl)
    · obtain ⟨j, hj, rfl⟩ := List.getElem_of_mem hy
      rw [List.getElem_drop]
      rw [List.length_drop] at hj
      exact h.gt i (i + 1 + j) (by omega) (by omega) (by rw [List.get_eq_getElem, heq]; rfl)
  rwa [List.getElem_cons_drop, List.take_append_drop, hlen] at hloc

/-- **The search** finds the place of the target. -/
theorem search_located {l : List α} {target : β} (h : Ascending cmp target l) {mid : ℕ → ℕ → ℕ}
    (hmid : ∀ low high, low < high → low ≤ mid low high ∧ mid low high < high) {probe : ℕ → Ordering}
    (hprobe : ∀ (i : ℕ) (hi : i < l.length), probe i = cmp l[i] target) {fuel low high : ℕ} (hfuel : high - low ≤ fuel)
    (hle : low ≤ high) (hhigh : high ≤ l.length)
    (hlt : ∀ (j : ℕ) (hj : j < l.length), j < low → cmp l[j] target = .lt)
    (hgt : ∀ (j : ℕ) (hj : j < l.length), high ≤ j → cmp l[j] target = .gt) :
    Located cmp target l (search mid probe fuel low high) := by
  induction fuel generalizing low high with
  | zero =>
    obtain rfl : low = high := by omega
    exact located_of_split low hhigh hlt hgt
  | succ fuel ih =>
    rw [search]
    split
    · next hlow =>
      obtain ⟨hm, hm'⟩ := hmid low high hlow
      have hin : mid low high < l.length := by omega
      split
      · next hp =>
        rw [hprobe _ hin] at hp
        refine ih (by omega) (by omega) hhigh (fun j hj hjm => ?_) hgt
        rcases Nat.lt_or_eq_of_le (Nat.le_of_lt_succ hjm) with hjm | rfl
        · exact h.lt j _ hjm hin (by rw [hp]; rfl)
        · exact hp
      · next hp =>
        rw [hprobe _ hin] at hp
        refine ih (by omega) (by omega) (by omega) hlt fun j hj hjm => ?_
        rcases Nat.lt_or_eq_of_le hjm with hjm | rfl
        · exact h.gt _ j hjm hj (by rw [List.get_eq_getElem, hp]; rfl)
        · exact hp
      · next hp =>
        rw [hprobe _ hin] at hp
        exact located_of_found h _ hin hp
    · next hlow =>
      obtain rfl : low = high := by omega
      exact located_of_split low hhigh hlt hgt

/-! ## The parts of the list on the sides of the place -/

theorem Located.getElem?_any {target : β} {l : List α} {p : Position} (h : Located cmp target l p)
    (ok : Ordering → Bool) (heq : ok .eq = true) (hgt : ok .gt = false) :
    (l[p.index]?.any fun x => ok (cmp x target)) = p.isFound := by
  cases h with
  | @found a x b ha hx hb => simp [Position.index, Position.isFound, hx, heq]
  | @missing a b ha hb =>
    cases b with
    | nil => simp [Position.index, Position.isFound]
    | cons y b => simp [Position.index, Position.isFound, hb y (by simp), hgt]

/-- What lies on the right of the place, with the target's own element or without it. -/
theorem Located.filter_drop {target : β} {l : List α} {p : Position} (h : Located cmp target l p)
    (ok : Ordering → Bool) (hlt : ok .lt = false) (hgt : ok .gt = true) : l.filter (fun x => ok (cmp x target)) =
      l.drop (if p.isFound && !ok .eq then p.index + 1 else p.index) := by
  have hnil {a : List α} (ha : ∀ y ∈ a, cmp y target = .lt) : a.filter (fun x => ok (cmp x target)) = [] :=
    SortedList.filter_within fun y hy => by rw [ha y hy, hlt]
  have hall {b : List α} (hb : ∀ y ∈ b, cmp y target = .gt) : b.filter (fun x => ok (cmp x target)) = b :=
    List.filter_eq_self.mpr fun y hy => by rw [hb y hy, hgt]
  cases h with
  | @found a x b ha hx hb =>
    cases heq : ok .eq with
    | true => simp [Position.index, hnil ha, hall hb, hx, heq]
    | false => simp [Position.index, Position.isFound, hnil ha, hall hb, hx, heq, List.drop_append]
  | @missing a b ha hb => simp [Position.index, Position.isFound, hnil ha, hall hb]

/-- What lies on the left of the place, with the target's own element or without it. -/
theorem Located.filter_take {target : β} {l : List α} {p : Position} (h : Located cmp target l p)
    (ok : Ordering → Bool) (hlt : ok .lt = true) (hgt : ok .gt = false) : l.filter (fun x => ok (cmp x target)) =
      l.take (if p.isFound && ok .eq then p.index + 1 else p.index) := by
  have hall {a : List α} (ha : ∀ y ∈ a, cmp y target = .lt) : a.filter (fun x => ok (cmp x target)) = a :=
    List.filter_eq_self.mpr fun y hy => by rw [ha y hy, hlt]
  have hnil {b : List α} (hb : ∀ y ∈ b, cmp y target = .gt) : b.filter (fun x => ok (cmp x target)) = [] :=
    SortedList.filter_within fun y hy => by rw [hb y hy, hgt]
  cases h with
  | @found a x b ha hx hb =>
    have htake : a.take (a.length + 1) = a := List.take_of_length_le (Nat.le_succ _)
    cases heq : ok .eq with
    | true => simp [Position.index, Position.isFound, hnil hb, hall ha, hx, heq, List.take_append, htake]
    | false => simp [Position.index, hnil hb, hall ha, hx, heq]
  | @missing a b ha hb => simp [Position.index, Position.isFound, hnil hb, hall ha]

end BinarySearch
