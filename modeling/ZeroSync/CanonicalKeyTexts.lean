/-
`canonicalKey` of `ivm/flipped-join.ts` over strings of any UTF-16 code units, and
the batch of `#fetchBatched` that is keyed by it.

Texts of several columns are joined by NUL, and a string may have NULs of its own:
over two columns there are always tuples that differ and have one text, but both of
them have such a string (`identifies_iff`).
-/
import Mathlib.Algebra.BigOperators.Group.List.Basic
import Mathlib.Data.Nat.Notation
import Mathlib.Tactic.Ring
import Std.Data.String.ToNat
import ZeroSync.Grouping

namespace ZeroSync.KeyTexts

/-- A string: its UTF-16 code units. -/
abbrev Units := List UInt16

/-- The code unit of an ASCII letter. -/
def unit (c : Char) : UInt16 := UInt16.ofNat c.toNat

/-- What a key column holds. Of the numbers, 0 and -0 are one. -/
inductive KeyValue (N : Type)
  | undefined
  | null
  | bool (b : Bool)
  | num (n : N)
  | str (s : Units)
  deriving DecidableEq

namespace KeyValue

variable {N : Type}

/-- A value with `undefined` taken for `null`. -/
def normalize : KeyValue N → KeyValue N
  | .undefined => .null
  | v => v

/-- The value is no string with a NUL in it. -/
def NulFree (v : KeyValue N) : Prop := ∀ s, v = .str s → 0 ∉ s

end KeyValue

/-- The values of the columns of a `Row` or a `Constraint`. -/
abbrev Record (N : Type) := String → KeyValue N

/-- The values agree column by column, `null` and `undefined` taken for one. -/
def Agree {N : Type} (keys : List String) (a b : Record N) : Prop :=
  ∀ key ∈ keys, (a key).normalize = (b key).normalize

/-- No key column holds a string with a NUL in it. -/
def NulFree {N : Type} (keys : List String) (a : Record N) : Prop := ∀ key ∈ keys, (a key).NulFree

section
variable {N : Type} (numberToString : N → Units)

/-- `canonicalValue` -/
def canonicalValue : KeyValue N → Units
  | .undefined | .null => [unit 'n']
  | .str s => unit 's' :: s
  | .num n => unit 'd' :: numberToString n
  | .bool b => if b then [unit 't'] else [unit 'f']

/-- `canonicalKey` -/
def canonicalKey (record : Record N) : List String → Units
  | [key] => canonicalValue numberToString (record key)
  | keys => List.intercalate [0] (keys.map fun key => canonicalValue numberToString (record key))

/-- What `#fetchBatched` gathers of the children: a constraint for each key, and the
children of each key. -/
structure Batch (N C : Type) where
  computedMulti : List (Record N)
  childrenByKey : OrderedMap Units (List C)

variable {C : Type} (constraint : C → Record N) (parentKey : List String)

/-- One round of the loop over the children, for one that is not left out. -/
def addChild (batch : Batch N C) (child : C) : Batch N C :=
  let key := canonicalKey numberToString (constraint child) parentKey
  match batch.childrenByKey.get? key with
  | none => ⟨batch.computedMulti ++ [constraint child], batch.childrenByKey.set key [child]⟩
  | some existing => ⟨batch.computedMulti, batch.childrenByKey.set key (existing ++ [child])⟩

def gather (children : List C) : Batch N C := children.foldl (addChild numberToString constraint parentKey) ⟨[], ∅⟩

/-- The child nodes a parent row of the batch is yielded with. -/
def relatedChildNodes (batch : Batch N C) (parent : Record N) : List C :=
  (batch.childrenByKey.get? (canonicalKey numberToString parent parentKey)).getD []

end

/-! ## Values -/

section
variable {N : Type} {numberToString : N → Units}

theorem canonicalKey_eq (record : Record N) (keys : List String) :
    canonicalKey numberToString record keys =
      List.intercalate [0] (keys.map fun key => canonicalValue numberToString (record key)) := by
  match keys with
  | [] | _ :: _ :: _ => rfl
  | [key] => simp [canonicalKey, List.intercalate]

theorem canonicalValue_normalize (v : KeyValue N) :
    canonicalValue numberToString v.normalize = canonicalValue numberToString v := by
  cases v <;> rfl

theorem canonicalValue_eq_iff (hinj : Function.Injective numberToString) {v w : KeyValue N} :
    canonicalValue numberToString v = canonicalValue numberToString w ↔ v.normalize = w.normalize := by
  have htags : unit 'n' ≠ unit 's' ∧ unit 'n' ≠ unit 'd' ∧ unit 'n' ≠ unit 't' ∧ unit 'n' ≠ unit 'f' ∧
      unit 's' ≠ unit 'd' ∧ unit 's' ≠ unit 't' ∧ unit 's' ≠ unit 'f' ∧ unit 'd' ≠ unit 't' ∧ unit 'd' ≠ unit 'f' ∧
      unit 't' ≠ unit 'f' := by decide
  obtain ⟨hns, hnd, hnt, hnf, hsd, hst, hsf, hdt, hdf, htf⟩ := htags
  constructor
  · intro h
    cases v <;> cases w
    case str.str s t => rw [(List.cons.inj h).2]
    case num.num m n => rw [hinj (List.cons.inj h).2]
    case bool.bool b c =>
      cases b <;> cases c <;> simp_all [canonicalValue, Ne.symm htf]
    all_goals
      simp only [canonicalValue] at h
      try split at h
    all_goals first
      | rfl
      | exact absurd (List.cons.inj h).1 (by assumption)
      | exact absurd (List.cons.inj h).1.symm (by assumption)
  · intro h
    rw [← canonicalValue_normalize v, h, canonicalValue_normalize]

theorem notMem_canonicalValue (hnul : ∀ n, 0 ∉ numberToString n) {v : KeyValue N} :
    0 ∉ canonicalValue numberToString v ↔ v.NulFree := by
  have htags : unit 'n' ≠ 0 ∧ unit 's' ≠ 0 ∧ unit 'd' ≠ 0 ∧ unit 't' ≠ 0 ∧ unit 'f' ≠ 0 := by decide
  obtain ⟨hn, hs, hd, ht, hf⟩ := htags
  cases v with
  | undefined | null => simpa [canonicalValue, KeyValue.NulFree] using hn.symm
  | bool b => cases b <;> simp [canonicalValue, KeyValue.NulFree, ht.symm, hf.symm]
  | num n => simp [canonicalValue, KeyValue.NulFree, hd.symm, hnul n]
  | str s => simp [canonicalValue, KeyValue.NulFree, hs.symm]

end

/-! ## Joined texts -/

theorem intercalate_cons_cons (x y : Units) (ls : List Units) :
    List.intercalate [0] (x :: y :: ls) = x ++ 0 :: List.intercalate [0] (y :: ls) := by
  simp [List.intercalate]

theorem count_intercalate (x : Units) (ls : List Units) :
    (List.intercalate [0] (x :: ls)).count 0 = ls.length + ((x :: ls).map (List.count 0)).sum := by
  induction ls generalizing x with
  | nil => simp [List.intercalate]
  | cons y ls ih =>
    rw [intercalate_cons_cons, List.count_append, List.count_cons_self, ih]
    simp only [List.map_cons, List.sum_cons, List.length_cons]
    omega

theorem intercalate_inj {ls ls' : List Units} (hlen : ls.length = ls'.length) (h : ∀ l ∈ ls, 0 ∉ l)
    (h' : ∀ l ∈ ls', 0 ∉ l) (heq : List.intercalate [0] ls = List.intercalate [0] ls') : ls = ls' := by
  by_cases hnil : ls = []
  · subst hnil
    exact (List.eq_nil_of_length_eq_zero hlen.symm).symm
  · have hnil' : ls' ≠ [] := fun hn => hnil (List.eq_nil_of_length_eq_zero (by rw [hlen, hn]; rfl))
    have hsplit := congrArg (List.splitOn 0) heq
    rwa [List.splitOn_intercalate _ h hnil, List.splitOn_intercalate _ h' hnil'] at hsplit

theorem notMem_of_intercalate_eq {ls ls' : List Units} (hlen : ls.length = ls'.length) (h : ∀ l ∈ ls, 0 ∉ l)
    (heq : List.intercalate [0] ls = List.intercalate [0] ls') : ∀ l ∈ ls', 0 ∉ l := by
  match ls, ls', hlen with
  | [], [], _ => exact h
  | x :: ls, y :: ls', hlen =>
    have hcount := congrArg (List.count 0) heq
    rw [count_intercalate, count_intercalate, Nat.succ.inj hlen, Nat.add_left_cancel_iff] at hcount
    have hzero : ((x :: ls).map (List.count 0)).sum = 0 := by
      refine List.sum_eq_zero_iff_forall_eq_nat.mpr fun n hn => ?_
      obtain ⟨l, hl, rfl⟩ := List.mem_map.mp hn
      exact List.count_eq_zero.mpr (h l hl)
    intro l hl
    rw [hcount] at hzero
    exact List.count_eq_zero.mp (List.sum_eq_zero_iff_forall_eq_nat.mp hzero _ (List.mem_map_of_mem hl))

theorem intercalate_replicate_inj {n : ℕ} {x y : Units}
    (h : List.intercalate [0] (List.replicate (n + 1) x) = List.intercalate [0] (List.replicate (n + 1) y)) : x = y := by
  have hlength : ∀ (z : Units) (n : ℕ),
      (List.intercalate [0] (List.replicate (n + 1) z)).length = (n + 1) * z.length + n := by
    intro z n
    induction n with
    | zero => simp [List.intercalate]
    | succ n ih =>
      rw [List.replicate_succ, List.replicate_succ, intercalate_cons_cons, ← List.replicate_succ, List.length_append,
        List.length_cons, ih]
      ring
  have hstarts : ∀ z : Units, z <+: List.intercalate [0] (List.replicate (n + 1) z) := by
    intro z
    cases n with
    | zero => simp [List.intercalate]
    | succ n =>
      rw [List.replicate_succ, List.replicate_succ, intercalate_cons_cons]
      exact List.prefix_append _ _
  have hlen := congrArg List.length h
  rw [hlength, hlength, Nat.add_right_cancel_iff] at hlen
  have hxy : x.length = y.length := Nat.eq_of_mul_eq_mul_left (Nat.succ_pos n) hlen
  exact List.IsPrefix.eq_of_length (List.prefix_of_prefix_length_le (hstarts x) (h ▸ hstarts y) hxy.le) hxy

/-! ## Keys -/

section
variable {N : Type} {numberToString : N → Units}

theorem agree_iff (hinj : Function.Injective numberToString) {keys : List String} {a b : Record N} :
    Agree keys a b ↔ keys.map (fun key => canonicalValue numberToString (a key)) =
      keys.map fun key => canonicalValue numberToString (b key) := by
  rw [List.map_inj_left]
  exact forall₂_congr fun key _ => (canonicalValue_eq_iff hinj).symm

theorem canonicalKey_eq_of_agree (hinj : Function.Injective numberToString) {keys : List String} {a b : Record N}
    (h : Agree keys a b) : canonicalKey numberToString a keys = canonicalKey numberToString b keys := by
  rw [canonicalKey_eq, canonicalKey_eq, (agree_iff hinj).mp h]

/-- **Texts tell tuples apart if one of the two has no NUL.** -/
theorem canonicalKey_eq_iff_of_nulFree (hinj : Function.Injective numberToString) (hnul : ∀ n, 0 ∉ numberToString n)
    {keys : List String} {a b : Record N} (h : NulFree keys a ∨ NulFree keys b) :
    canonicalKey numberToString a keys = canonicalKey numberToString b keys ↔ Agree keys a b := by
  refine ⟨fun heq => ?_, canonicalKey_eq_of_agree hinj⟩
  rw [canonicalKey_eq, canonicalKey_eq] at heq
  rw [agree_iff hinj]
  have hfree : ∀ {a : Record N}, NulFree keys a →
      ∀ l ∈ keys.map fun key => canonicalValue numberToString (a key), 0 ∉ l := by
    intro a ha l hl
    obtain ⟨key, hkey, rfl⟩ := List.mem_map.mp hl
    exact (notMem_canonicalValue hnul).mpr (ha key hkey)
  have hlen : (keys.map fun key => canonicalValue numberToString (a key)).length =
      (keys.map fun key => canonicalValue numberToString (b key)).length := by rw [List.length_map, List.length_map]
  rcases h with ha | hb
  · exact intercalate_inj hlen (hfree ha) (notMem_of_intercalate_eq hlen (hfree ha) heq) heq
  · exact intercalate_inj hlen (notMem_of_intercalate_eq hlen.symm (hfree hb) heq.symm) (hfree hb) heq

theorem canonicalKey_eq_iff_of_one (hinj : Function.Injective numberToString) {keys : List String}
    (hone : ∀ k ∈ keys, ∀ k' ∈ keys, k = k') {a b : Record N} :
    canonicalKey numberToString a keys = canonicalKey numberToString b keys ↔ Agree keys a b := by
  refine ⟨fun heq => ?_, canonicalKey_eq_of_agree hinj⟩
  match keys with
  | [] => exact fun _ hk => absurd hk List.not_mem_nil
  | k :: rest =>
    have hsame : ∀ key ∈ k :: rest, key = k := fun key hkey => hone key hkey k List.mem_cons_self
    have hkeys : k :: rest = List.replicate (rest.length + 1) k := List.eq_replicate_iff.mpr ⟨rfl, hsame⟩
    rw [canonicalKey_eq, canonicalKey_eq, hkeys, List.map_replicate, List.map_replicate] at heq
    have hvalue := (canonicalValue_eq_iff hinj).mp (intercalate_replicate_inj heq)
    intro key hkey
    rw [hsame key hkey]
    exact hvalue

/-! ## Two columns -/

/-- A string of empty ones after the first, each with the tag of a string before it. -/
def tagged (n : ℕ) : Units := (List.replicate n [0, unit 's']).flatten

theorem tagged_append (m n : ℕ) : tagged m ++ 0 :: unit 's' :: tagged n = tagged (m + 1 + n) := by
  unfold tagged
  rw [List.replicate_add, List.flatten_append, List.replicate_succ', List.flatten_concat]
  simp

theorem tagged_injective : Function.Injective tagged := by
  intro m n h
  have hlength : ∀ n, (tagged n).length = 2 * n := by
    intro n
    simp [tagged, Nat.mul_comm]
  have hlen := congrArg List.length h
  rw [hlength, hlength] at hlen
  omega

theorem intercalate_tagged (f : String → ℕ) (k : String) (keys : List String) :
    List.intercalate [0] ((k :: keys).map fun key => unit 's' :: tagged (f key)) =
      unit 's' :: tagged (keys.length + ((k :: keys).map f).sum) := by
  induction keys generalizing k with
  | nil => simp [List.intercalate]
  | cons k' keys ih =>
    rw [List.map_cons, List.map_cons, intercalate_cons_cons, ← List.map_cons (f := fun key => unit 's' :: tagged (f key)),
      ih, List.cons_append, tagged_append]
    simp only [List.map_cons, List.sum_cons, List.length_cons]
    congr 2
    omega

/-- The record with a string of `n` empty ones after the first in one column. -/
def taggedRecord (k : String) (n : ℕ) : Record N := fun key => .str (tagged (if key = k then n else 0))

theorem canonicalKey_taggedRecord (k k₀ : String) (keys : List String) (n : ℕ) :
    canonicalKey numberToString (taggedRecord k n) (k₀ :: keys) =
      unit 's' :: tagged (keys.length + (k₀ :: keys).count k * n) := by
  have hsum : ∀ keys : List String, (keys.map fun key => if key = k then n else 0).sum = keys.count k * n := by
    intro keys
    induction keys with
    | nil => simp
    | cons key keys ih =>
      rw [List.map_cons, List.sum_cons, ih, List.count_cons]
      by_cases h : key = k
      · subst h
        simp
        ring
      · simp [h]
  rw [canonicalKey_eq, ← hsum]
  exact intercalate_tagged (fun key => if key = k then n else 0) k₀ keys

/-- **Of two columns there are tuples that differ and have one text.** -/
theorem exists_same_text {keys : List String} {k k' : String} (hk : k ∈ keys) (hk' : k' ∈ keys) (hne : k ≠ k') :
    ∃ a b : Record N, canonicalKey numberToString a keys = canonicalKey numberToString b keys ∧ ¬ Agree keys a b := by
  match keys with
  | [] => cases hk
  | k₀ :: rest =>
    refine ⟨taggedRecord k ((k₀ :: rest).count k'), taggedRecord k' ((k₀ :: rest).count k), ?_, fun hagree => ?_⟩
    · rw [canonicalKey_taggedRecord, canonicalKey_taggedRecord, Nat.mul_comm]
    · have hval := hagree k hk
      simp only [taggedRecord, if_neg hne, if_true, KeyValue.normalize, KeyValue.str.injEq] at hval
      have hzero := tagged_injective hval
      have hpos := List.count_pos_iff.mpr hk'
      omega

end

/-! ## Batches -/

section
variable {N C : Type} {numberToString : N → Units} {constraint : C → Record N} {parentKey : List String}

/-- What a batch has gathered of some children, by the texts of their keys. -/
structure Gathered (numberToString : N → Units) (constraint : C → Record N) (parentKey : List String)
    (children : List C) (batch : Batch N C) : Prop where
  children_eq : ∀ text, (batch.childrenByKey.get? text).getD [] =
    children.filter fun child => canonicalKey numberToString (constraint child) parentKey = text
  computed : ∀ text, (batch.childrenByKey.get? text).isSome ↔
    ∃ c ∈ batch.computedMulti, canonicalKey numberToString c parentKey = text
  covered : ∀ child ∈ children, ∃ c ∈ batch.computedMulti,
    canonicalKey numberToString c parentKey = canonicalKey numberToString (constraint child) parentKey
  ofChild : ∀ c ∈ batch.computedMulti, ∃ child ∈ children, c = constraint child
  distinct : batch.computedMulti.Pairwise fun c c' =>
    canonicalKey numberToString c parentKey ≠ canonicalKey numberToString c' parentKey

theorem Gathered.addChild {children : List C} {batch : Batch N C}
    (h : Gathered numberToString constraint parentKey children batch) (child : C) :
    Gathered numberToString constraint parentKey (children ++ [child])
      (addChild numberToString constraint parentKey batch child) := by
  have hfilter : ∀ text, (children ++ [child]).filter
        (fun child => canonicalKey numberToString (constraint child) parentKey = text) =
      (batch.childrenByKey.get? text).getD [] ++
        if canonicalKey numberToString (constraint child) parentKey = text then [child] else [] := by
    intro text
    rw [List.filter_append, h.children_eq]
    by_cases ht : canonicalKey numberToString (constraint child) parentKey = text <;> simp [ht]
  unfold KeyTexts.addChild
  dsimp only
  split
  · next hnone =>
    have hnew : ∀ c ∈ batch.computedMulti,
        canonicalKey numberToString c parentKey ≠ canonicalKey numberToString (constraint child) parentKey := by
      intro c hc heq
      have hsome := (h.computed _).mpr ⟨c, hc, heq⟩
      rw [hnone] at hsome
      cases hsome
    refine ⟨fun text => ?_, fun text => ?_, fun c hc => ?_, fun c hc => ?_, ?_⟩
    · rw [hfilter, OrderedMap.get?_set]
      by_cases ht : canonicalKey numberToString (constraint child) parentKey = text
      · subst ht
        simp [hnone]
      · simp [ht]
    · rw [OrderedMap.get?_set]
      by_cases ht : canonicalKey numberToString (constraint child) parentKey = text
      · simp [ht]
      · simpa [ht] using h.computed text
    · rcases List.mem_append.mp hc with hc | hc
      · obtain ⟨c', hc', heq⟩ := h.covered c hc
        exact ⟨c', List.mem_append_left _ hc', heq⟩
      · obtain rfl := List.mem_singleton.mp hc
        exact ⟨_, List.mem_append_right _ List.mem_cons_self, rfl⟩
    · rcases List.mem_append.mp hc with hc | hc
      · obtain ⟨c', hc', heq⟩ := h.ofChild c hc
        exact ⟨c', List.mem_append_left _ hc', heq⟩
      · exact ⟨child, List.mem_append_right _ List.mem_cons_self, List.mem_singleton.mp hc⟩
    · refine List.pairwise_append.mpr ⟨h.distinct, List.pairwise_singleton _ _, fun c hc c' hc' => ?_⟩
      rw [List.mem_singleton.mp hc']
      exact hnew c hc
  · next existing hsome =>
    obtain ⟨c, hc, heq⟩ := (h.computed (canonicalKey numberToString (constraint child) parentKey)).mp (by rw [hsome]; rfl)
    refine ⟨fun text => ?_, fun text => ?_, fun c' hc' => ?_, fun c' hc' => ?_, h.distinct⟩
    · rw [hfilter, OrderedMap.get?_set]
      by_cases ht : canonicalKey numberToString (constraint child) parentKey = text
      · subst ht
        simp [hsome]
      · simp [ht]
    · rw [OrderedMap.get?_set, ← h.computed]
      by_cases ht : canonicalKey numberToString (constraint child) parentKey = text
      · subst ht
        simp [hsome]
      · simp [ht]
    · rcases List.mem_append.mp hc' with hc' | hc'
      · exact h.covered c' hc'
      · obtain rfl := List.mem_singleton.mp hc'
        exact ⟨c, hc, heq⟩
    · obtain ⟨child', hchild', heq'⟩ := h.ofChild c' hc'
      exact ⟨child', List.mem_append_left _ hchild', heq'⟩

theorem gathered (children : List C) :
    Gathered numberToString constraint parentKey children (gather numberToString constraint parentKey children) := by
  induction children using List.reverseRecOn with
  | nil =>
    exact ⟨fun _ => rfl, fun _ => ⟨fun h => by simp [gather] at h, fun h => by simp [gather] at h⟩,
      fun _ h => absurd h List.not_mem_nil, fun _ h => absurd h List.not_mem_nil, List.Pairwise.nil⟩
  | append_singleton children child ih =>
    have hstep : gather numberToString constraint parentKey (children ++ [child]) =
        addChild numberToString constraint parentKey (gather numberToString constraint parentKey children) child := by
      simp [gather]
    rw [hstep]
    exact ih.addChild child

/-- The constraints of a batch tell its tuples apart, and a parent gets the children of
its tuple. -/
structure Batch.Exact (constraint : C → Record N) (parentKey : List String) (children : List C)
    (numberToString : N → Units) (batch : Batch N C) : Prop where
  /-- No two entries of the multi-constraint agree. -/
  distinct : batch.computedMulti.Pairwise fun c c' => ¬ Agree parentKey c c'
  /-- Every child's tuple has an entry. -/
  covered : ∀ child ∈ children, ∃ c ∈ batch.computedMulti, Agree parentKey c (constraint child)
  /-- A parent gets the children whose tuple is its own, in their order. -/
  related : ∀ parent, (relatedChildNodes numberToString parentKey batch parent).Sublist children ∧
    ∀ child, child ∈ relatedChildNodes numberToString parentKey batch parent ↔
      child ∈ children ∧ Agree parentKey (constraint child) parent

theorem gather_exact (hinj : Function.Injective numberToString) (hnul : ∀ n, 0 ∉ numberToString n)
    {children : List C} (h : ∀ child ∈ children, NulFree parentKey (constraint child)) :
    (gather numberToString constraint parentKey children).Exact constraint parentKey children numberToString := by
  have hg : Gathered numberToString constraint parentKey children _ := gathered children
  refine ⟨hg.distinct.imp fun hne hagree => hne (canonicalKey_eq_of_agree hinj hagree), fun child hchild => ?_,
    fun parent => ?_⟩
  · obtain ⟨c, hc, heq⟩ := hg.covered child hchild
    exact ⟨c, hc, (canonicalKey_eq_iff_of_nulFree hinj hnul (.inr (h child hchild))).mp heq⟩
  · unfold relatedChildNodes
    rw [hg.children_eq]
    refine ⟨List.filter_sublist, fun child => ?_⟩
    rw [List.mem_filter, decide_eq_true_iff]
    exact and_congr_right fun hchild => canonicalKey_eq_iff_of_nulFree hinj hnul (.inl (h child hchild))

end

/-! ## Which tuples are told apart -/

/-- **`canonicalKey` tells all tuples apart just if there is but one key column**; of more
it tells those apart of which one has no NUL, and a batch of such children is exact. -/
theorem identifies_iff {N : Type} {numberToString : N → Units} (hinj : Function.Injective numberToString)
    (hnul : ∀ n, 0 ∉ numberToString n) (keys : List String) :
    ((∀ a b : Record N, canonicalKey numberToString a keys = canonicalKey numberToString b keys ↔ Agree keys a b) ↔
      ∀ k ∈ keys, ∀ k' ∈ keys, k = k') ∧
    (∀ a b : Record N, NulFree keys a ∨ NulFree keys b →
      (canonicalKey numberToString a keys = canonicalKey numberToString b keys ↔ Agree keys a b)) ∧
    ∀ (C : Type) (constraint : C → Record N) (children : List C),
      (∀ child ∈ children, NulFree keys (constraint child)) →
        (gather numberToString constraint keys children).Exact constraint keys children numberToString := by
  refine ⟨⟨fun h k hk k' hk' => ?_, fun hone a b => canonicalKey_eq_iff_of_one hinj hone⟩,
    fun a b h => canonicalKey_eq_iff_of_nulFree hinj hnul h, fun C constraint children h => gather_exact hinj hnul h⟩
  by_contra hne
  obtain ⟨a, b, heq, hnot⟩ : ∃ a b : Record N, canonicalKey numberToString a keys = canonicalKey numberToString b keys ∧
      ¬ Agree keys a b := exists_same_text hk hk' hne
  exact hnot ((h a b).mp heq)

/-- The digits of a natural number. -/
def digits (n : ℕ) : Units := (Nat.toDigits 10 n).map unit

theorem isDigit_of_mem_toDigits {n : ℕ} {c : Char} (h : c ∈ Nat.toDigits 10 n) : c.isDigit = true :=
  Nat.isDigit_of_mem_toDigits (by decide) (by decide) h

theorem toNat_unit {c : Char} (h : c.isDigit = true) : (unit c).toNat = c.toNat ∧ 48 ≤ c.toNat := by
  obtain ⟨hlo, hhi⟩ : 48 ≤ c.toNat ∧ c.toNat ≤ 57 := by
    simpa [Char.isDigit, UInt32.le_iff_toNat_le] using h
  refine ⟨?_, hlo⟩
  rw [unit, UInt16.toNat_ofNat']
  omega

theorem digits_injective : Function.Injective digits := by
  have hback : ∀ n, (digits n).map (fun u => Char.ofNat u.toNat) = Nat.toDigits 10 n := by
    intro n
    rw [digits, List.map_map]
    refine (List.map_congr_left fun c hc => ?_).trans (List.map_id _)
    change Char.ofNat (unit c).toNat = c
    rw [(toNat_unit (isDigit_of_mem_toDigits hc)).1, Char.ofNat_toNat]
  intro m n h
  have hdigits : Nat.toDigits 10 m = Nat.toDigits 10 n := by rw [← hback, h, hback]
  refine Nat.repr_inj.mp (String.toList_inj.mp ?_)
  rw [Nat.toList_repr, Nat.toList_repr, hdigits]

theorem zero_notMem_digits (n : ℕ) : 0 ∉ digits n := by
  intro h
  obtain ⟨c, hc, hzero⟩ := List.mem_map.mp h
  obtain ⟨htoNat, hlo⟩ := toNat_unit (isDigit_of_mem_toDigits hc)
  rw [hzero] at htoNat
  have : (0 : UInt16).toNat = 0 := rfl
  omega

/-- The number 7 and the string `'7'`. -/
theorem identifies_number_from_string :
    canonicalKey digits (fun _ => .num 7) ["id"] ≠ canonicalKey digits (fun _ => .str [unit '7']) ["id"] := by
  intro h
  have hagree := ((identifies_iff digits_injective zero_notMem_digits ["id"]).1.mpr (by simp) _ _).mp h "id" (by simp)
  cases hagree

/-- `{a: 'x\0sy', b: 'z'}` and `{a: 'x', b: 'y\0sz'}`. -/
theorem same_text_of_two_tuples :
    let a : Record ℕ := fun key => .str (if key = "a" then [unit 'x', 0, unit 's', unit 'y'] else [unit 'z'])
    let b : Record ℕ := fun key => .str (if key = "a" then [unit 'x'] else [unit 'y', 0, unit 's', unit 'z'])
    canonicalKey digits a ["a", "b"] = canonicalKey digits b ["a", "b"] ∧ ¬ Agree ["a", "b"] a b := by
  refine ⟨by decide, fun h => ?_⟩
  have ha := h "a" (by decide)
  revert ha
  decide

end ZeroSync.KeyTexts
