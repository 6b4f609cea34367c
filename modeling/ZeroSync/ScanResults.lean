/-
What a scan gives when its result is read to the end (`toArray`): the entries it
specifies, in the order of their keys, unless its limit is 0 or less.

Where a scan starts is decided on encoded keys, where it stops and what an exclusive
start leaves out on decoded ones; `includes` says it of a key alone.
-/
import ZeroSync.SubscriptionRuns
import Mathlib.Data.Prod.Lex

namespace ZeroSync.Subscriptions

variable {V : Type} {indexNames : List IndexName} {options : ScanOptions} {l : List (String × V)}

/-! ## What a scan specifies -/

/-- A key of an index after another: by the secondary key, then by the primary key. -/
def pairKey (secondary primary : String) : String ×ₗ String := toLex (secondary, primary)

/-- At the start of a scan or after it; after it where it is exclusive. -/
def ScanMap.fromStart : ScanMap → ScanKey → Bool
  | .primary (some start), .primary key => if start.exclusive then start.key < key else start.key ≤ key
  | .index _ (some start), .index secondaryKey primaryKey =>
    match normalizeScanOptionIndexedStartKey start.key with
    | (secondaryStartKey, none) =>
      if start.exclusive then secondaryStartKey < secondaryKey else secondaryStartKey ≤ secondaryKey
    | (secondaryStartKey, some primaryStartKey) =>
      if start.exclusive then pairKey secondaryStartKey primaryStartKey < pairKey secondaryKey primaryKey
      else pairKey secondaryStartKey primaryStartKey ≤ pairKey secondaryKey primaryKey
  | _, _ => true

/-- A key with the prefix, from the start on. -/
def ScanOptions.includes (options : ScanOptions) (key : ScanKey) : Bool :=
  startsWith key.keyToMatch (options.keyPrefix.getD "") && options.target.fromStart key

/-- An entry with its key as it is read. -/
def ScanMap.readEntry (target : ScanMap) (e : String × V) : Option (ScanKey × V) :=
  match target.readKey e.1 with
  | .ok key => some (key, e.2)
  | .error _ => none

/-- All entries that a scan without a limit is to give. -/
def ReadState.matching (s : ReadState V indexNames) (options : ScanOptions) : List (ScanKey × V) :=
  ((s.entries options.target).filterMap options.target.readEntry).filter fun e => options.includes e.1

/-- What a scan specifies: the first `max(0, limit)` entries of them. -/
def ReadState.specified (s : ReadState V indexNames) (options : ScanOptions) (limit : Option ℤ) : List (ScanKey × V) :=
  match limit with
  | none => s.matching options
  | some n => (s.matching options).take n.toNat

/-- The order of keys. -/
def ScanKey.Before : ScanKey → ScanKey → Prop
  | .primary a, .primary b => a < b
  | .index a c, .index b d => pairKey a c < pairKey b d
  | _, _ => False

/-! ## Reading to the end -/

/-- `asyncIterableToArray` of an iterator of a scan; `none` when `fuel` calls of `next` were
not enough. -/
def Scan.toArray (i : ℕ) : ℕ → Scan V → Option (Except ScanError (List (ScanKey × V)))
  | 0, _ => none
  | fuel + 1, scan =>
    match scan.next i with
    | (.error e, _) => some (.error e)
    | (.ok none, _) => some (.ok [])
    | (.ok (some entry), scan) => (toArray i fuel scan).map fun result => result.map (entry :: ·)

/-- A secondary key of the options has no NUL: it can be encoded. -/
def ScanOptions.Encodable (options : ScanOptions) : Prop :=
  match options.target with
  | .primary _ => True
  | .index _ start => '\x00' ∉ (options.keyPrefix.getD "").toList ∧
      ∀ st, start = some st → '\x00' ∉ (normalizeScanOptionIndexedStartKey st.key).1.toList

/-! ## What is in the scope -/

theorem fromKeyForNonIndexScan_le {keyPrefix : Option String} {start : Option (Start String)} {k : String} :
    fromKeyForNonIndexScan keyPrefix start ≤ k ↔ keyPrefix.getD "" ≤ k ∧ ∀ st, start = some st → st.key ≤ k := by
  constructor
  · intro h
    obtain ⟨hpre, hstart⟩ := le_fromKeyForNonIndexScan keyPrefix start
    exact ⟨hpre.trans h, fun st hst => (hstart st hst).trans h⟩
  · rintro ⟨hpre, hstart⟩
    cases start with
    | none => exact hpre
    | some st =>
      unfold fromKeyForNonIndexScan
      dsimp only
      split
      · exact hstart st rfl
      · exact hpre

theorem le_of_startsWith {s start : String} (h : startsWith s start = true) : start ≤ s :=
  String.le_iff_toList_le.mpr (PrefixOrder.le_of_prefix (startsWith_iff.mp h))

theorem inScope_primary_iff {start : Option (Start String)} (ho : options.target = .primary start) (k : String) :
    options.inScope k = options.includes (.primary k) := by
  rw [Bool.eq_iff_iff]
  unfold ScanOptions.inScope ScanOptions.fromKey ScanOptions.includes
  rw [ho]
  simp only [ScanMap.readKey, ScanKey.keyToMatch, Bool.and_eq_true, decide_eq_true_eq, Bool.not_eq_true',
    fromKeyForNonIndexScan_le]
  cases start with
  | none =>
    simp only [ScanMap.skips, ScanMap.fromStart]
    exact ⟨fun h => ⟨h.1.2, trivial⟩, fun h => ⟨⟨⟨le_of_startsWith h.1, fun _ h => by cases h⟩, h.1⟩, trivial⟩⟩
  | some st =>
    simp only [ScanMap.skips, ScanMap.fromStart, shouldSkipNonIndexScan, Option.some.injEq, forall_eq']
    cases hex : st.exclusive with
    | false =>
      simp only [Bool.false_and, Bool.false_eq_true, if_false, decide_eq_true_eq]
      exact ⟨fun h => ⟨h.1.2, h.1.1.2⟩, fun h => ⟨⟨⟨le_of_startsWith h.1, h.2⟩, h.1⟩, trivial⟩⟩
    | true =>
      simp only [Bool.true_and, if_true, decide_eq_true_eq, decide_eq_false_iff_not]
      exact ⟨fun h => ⟨h.1.2, lt_of_le_of_ne h.1.1.2 (Ne.symm h.2)⟩,
        fun h => ⟨⟨⟨le_of_startsWith h.1, h.2.le⟩, h.1⟩, ne_of_gt h.2⟩⟩

theorem scanWord_le_iff {startSecondary secondary primary k : String} {startPrimary : Option String}
    (hstart : '\x00' ∉ startSecondary.toList) (hdec : decodeIndexKey k = .ok (secondary, primary)) :
    scanWord startSecondary startPrimary ≤ k.toList ↔
      match startPrimary with
      | none => startSecondary ≤ secondary
      | some startPrimary => pairKey startSecondary startPrimary ≤ pairKey secondary primary := by
  obtain ⟨hkey, hnot⟩ := decodeIndexKey_ok hdec
  rw [hkey]
  cases startPrimary with
  | none =>
    constructor
    · intro h
      rcases PrefixOrder.cons_le_cons.mp h with hlt | ⟨-, hle⟩
      · exact absurd hlt (lt_irrefl _)
      · exact String.le_iff_toList_le.mpr (PrefixOrder.le_of_le_join least_char hstart hle)
    · intro h
      refine PrefixOrder.cons_le_cons.mpr (.inr ⟨rfl, ?_⟩)
      exact (String.le_iff_toList_le.mp h).trans (PrefixOrder.le_of_prefix (List.prefix_append _ _))
  | some startPrimary =>
    refine PrefixOrder.cons_le_cons.trans ?_
    rw [or_iff_right (lt_irrefl '\x00'), and_iff_right rfl]
    refine (PrefixOrder.join_le_iff least_char hstart hnot).trans ?_
    rw [← String.lt_iff_toList_lt, String.toList_inj, ← String.le_iff_toList_le]
    exact (Prod.Lex.toLex_le_toLex (x := (startSecondary, startPrimary)) (y := (secondary, primary))).symm

theorem encodeIndexScanKey_encodable {secondary : String} (primary : Option String) (h : '\x00' ∉ secondary.toList) :
    ∃ k, encodeIndexScanKey secondary primary = .ok k ∧ k.toList = scanWord secondary primary := by
  have hok : ∃ k, encodeIndexScanKey secondary primary = .ok k := by
    unfold encodeIndexScanKey encodeIndexKey
    rw [if_neg h]
    cases primary <;> exact ⟨_, rfl⟩
  obtain ⟨k, hk⟩ := hok
  exact ⟨k, hk, (encodeIndexScanKey_ok hk).2⟩

theorem later_le {a b k : String} : (if a > b then a else b) ≤ k ↔ b ≤ k ∧ a ≤ k := by
  split
  · next hgt => exact ⟨fun h => ⟨(le_of_lt hgt).trans h, h⟩, fun h => h.2⟩
  · next hgt => exact ⟨fun h => ⟨h, (not_lt.mp hgt).trans h⟩, fun h => h.1⟩

theorem fromKeyForIndexScan_le {keyPrefix : Option String} {start : Option (Start IndexedStartKey)}
    (hpre : '\x00' ∉ (keyPrefix.getD "").toList)
    (hstart : ∀ st, start = some st → '\x00' ∉ (normalizeScanOptionIndexedStartKey st.key).1.toList) :
    ∃ fromKey, fromKeyForIndexScanInternal keyPrefix start = .ok fromKey ∧ ∀ k : String, fromKey ≤ k ↔
      (∀ p, keyPrefix = some p → scanWord p none ≤ k.toList) ∧ ∀ st, start = some st →
        scanWord (normalizeScanOptionIndexedStartKey st.key).1 (normalizeScanOptionIndexedStartKey st.key).2 ≤
          k.toList := by
  have hempty (k : String) : "" ≤ k := String.le_iff_toList_le.mpr (PrefixOrder.nil_le _)
  unfold fromKeyForIndexScanInternal
  cases start with
  | none =>
    cases keyPrefix with
    | none => exact ⟨"", rfl, fun k => iff_of_true (hempty k) (by simp)⟩
    | some p =>
      obtain ⟨prefix2, hprefix2, hword⟩ := encodeIndexScanKey_encodable none hpre
      rw [Option.getD_some] at hprefix2 hword
      refine ⟨prefix2, by simp only [bind, Except.bind, hprefix2], fun k => ?_⟩
      simp only [Option.some.injEq, forall_eq', reduceCtorEq, false_implies, implies_true, and_true,
        String.le_iff_toList_le, hword]
  | some st =>
    obtain ⟨startKey, hstartKey, hstartWord⟩ :=
      encodeIndexScanKey_encodable (normalizeScanOptionIndexedStartKey st.key).2 (hstart st rfl)
    cases keyPrefix with
    | none =>
      refine ⟨if startKey > "" then startKey else "", by simp only [bind, Except.bind, hstartKey], fun k => ?_⟩
      rw [later_le, and_iff_right (hempty k), String.le_iff_toList_le, hstartWord]
      simp only [Option.some.injEq, forall_eq', reduceCtorEq, false_implies, implies_true, true_and]
    | some p =>
      obtain ⟨prefix2, hprefix2, hword⟩ := encodeIndexScanKey_encodable none hpre
      rw [Option.getD_some] at hprefix2 hword
      refine ⟨if startKey > prefix2 then startKey else prefix2, by simp only [bind, Except.bind, hprefix2, hstartKey],
        fun k => ?_⟩
      rw [later_le, String.le_iff_toList_le, String.le_iff_toList_le, hword, hstartWord]
      simp only [Option.some.injEq, forall_eq']

theorem inScope_index_iff {name : IndexName} {start : Option (Start IndexedStartKey)}
    (ho : options.target = .index name start) (henc : options.Encodable) {k secondary primary : String}
    (hdec : decodeIndexKey k = .ok (secondary, primary)) :
    options.inScope k = options.includes (.index secondary primary) := by
  unfold ScanOptions.Encodable at henc
  rw [ho] at henc
  obtain ⟨hpre, hstart⟩ := henc
  obtain ⟨fromKey, hfrom, hle⟩ := fromKeyForIndexScan_le hpre hstart
  -- a key with the prefix is not before it
  have hbefore (h : startsWith secondary (options.keyPrefix.getD "") = true) (p : String)
      (hp : options.keyPrefix = some p) : scanWord p none ≤ k.toList := by
    rw [hp] at h hpre
    exact (scanWord_le_iff hpre hdec).mpr (le_of_startsWith h)
  rw [Bool.eq_iff_iff]
  unfold ScanOptions.inScope ScanOptions.fromKey ScanOptions.includes
  rw [ho]
  simp only [hfrom, ScanMap.readKey, hdec, Except.map, ScanKey.keyToMatch, Bool.and_eq_true, decide_eq_true_eq,
    Bool.not_eq_true', hle]
  cases start with
  | none =>
    simp only [ScanMap.skips, ScanMap.fromStart]
    exact ⟨fun h => ⟨h.1.2, trivial⟩, fun h => ⟨⟨⟨hbefore h.1, fun _ h => by cases h⟩, h.1⟩, trivial⟩⟩
  | some st =>
    simp only [ScanMap.skips, ScanMap.fromStart, shouldSkipIndexScan, Option.some.injEq, forall_eq']
    specialize hstart st rfl
    generalize normalizeScanOptionIndexedStartKey st.key = startKey at hstart ⊢
    obtain ⟨startSecondary, startPrimary⟩ := startKey
    rw [scanWord_le_iff hstart hdec]
    have hparts {p l s e f : Prop} (hp : s → p) (h : l ∧ e ↔ f) : ((p ∧ l) ∧ s) ∧ e ↔ s ∧ f := by
      rw [← h]
      tauto
    refine hparts hbefore ?_
    cases startPrimary with
    | none =>
      cases hex : st.exclusive with
      | false => simp
      | true =>
        simp only [Bool.true_and, if_true, decide_eq_true_eq]
        by_cases heq : secondary = startSecondary
        · simp [heq]
        · simp [heq, lt_iff_le_and_ne, Ne.symm heq]
    | some startPrimary =>
      cases hex : st.exclusive with
      | false => simp
      | true =>
        have hkey : pairKey startSecondary startPrimary = pairKey secondary primary ↔
            secondary = startSecondary ∧ primary = startPrimary := by
          refine ⟨fun h => ⟨(Prod.mk.inj (toLex.injective h)).1.symm, (Prod.mk.inj (toLex.injective h)).2.symm⟩, ?_⟩
          rintro ⟨h, h'⟩
          rw [h, h']
        simp only [Bool.true_and, if_true, decide_eq_true_eq, lt_iff_le_and_ne, Ne, hkey]
        by_cases heq : secondary = startSecondary <;> simp [heq]

theorem inScope_eq_includes (henc : options.Encodable) {k : String} {key : ScanKey}
    (hkey : options.target.readKey k = .ok key) : options.inScope k = options.includes key := by
  cases ho : options.target with
  | primary start =>
    rw [ho] at hkey
    obtain rfl := Except.ok.inj hkey
    exact inScope_primary_iff ho k
  | index name start =>
    rw [ho] at hkey
    obtain ⟨⟨secondary, primary⟩, hdec, rfl⟩ := Fallible.map_ok hkey
    exact inScope_index_iff ho henc hdec

theorem encodable_iff : options.Encodable ↔ ∃ fromKey, options.fromKey = .ok fromKey := by
  unfold ScanOptions.Encodable ScanOptions.fromKey
  cases options.target with
  | primary start => exact iff_of_true trivial ⟨_, rfl⟩
  | index name start =>
    constructor
    · rintro ⟨hpre, hstart⟩
      obtain ⟨fromKey, hfrom, -⟩ := fromKeyForIndexScan_le hpre hstart
      exact ⟨fromKey, hfrom⟩
    · rintro ⟨fromKey, hfrom⟩
      obtain ⟨hpre, hstart⟩ := fromKeyForIndexScan_ok hfrom
      refine ⟨?_, fun st hst => (hstart st hst).1⟩
      cases hp : options.keyPrefix with
      | none => simp
      | some p => exact (hpre p hp).1

/-! ## Reading -/

/-- What a loop takes that counts a limit down to 0. -/
def countDown {α : Type} (limit : Option ℤ) (xs : List α) : List α :=
  match limit with
  | none => xs
  | some n => if 0 < n then xs.take n.toNat else xs

theorem countDown_nil {α : Type} (limit : Option ℤ) : countDown limit ([] : List α) = [] := by
  unfold countDown
  cases limit with
  | none => rfl
  | some n => simp

theorem countDown_one {α : Type} (x : α) (xs : List α) : countDown (some 1) (x :: xs) = [x] := rfl

theorem countDown_cons {α : Type} {limit : Option ℤ} (h : limit ≠ some 1) (x : α) (xs : List α) :
    countDown limit (x :: xs) = x :: countDown (limit.map (· - 1)) xs := by
  unfold countDown
  cases limit with
  | none => rfl
  | some n =>
    have hn : n ≠ 1 := fun heq => h (congrArg some heq)
    simp only [Option.map_some]
    by_cases hpos : 0 < n
    · have hsucc : n.toNat = (n - 1).toNat + 1 := by omega
      rw [if_pos hpos, if_pos (by omega), hsucc, List.take_succ_cons]
    · rw [if_neg hpos, if_neg (by omega)]

theorem next_met {scan : Scan V} {i : ℕ} {limit : Option ℚ} {key : String}
    (hit : scan.iterators[i]? = some ⟨limit, some key, false⟩) (hlimit : limit.map (· - 1) = some 0) :
    (scan.next i).1 = .ok none := by
  unfold Scan.next
  simp only [hit, Bool.false_eq_true, if_false, hlimit, if_true]

theorem next_goes_on {scan : Scan V} {i : ℕ} {limit : Option ℚ} {key : String}
    (hit : scan.iterators[i]? = some ⟨limit, some key, false⟩) (hlimit : limit.map (· - 1) ≠ some 0) :
    scan.next i = scan.advance i (limit.map (· - 1)) := by
  unfold Scan.next
  simp only [hit, Bool.false_eq_true, if_false, hlimit]

theorem toArray_of_advance {scan : Scan V} (h : scan.Sound) {i : ℕ} (hi : i < scan.iterators.length) {limit : Option ℤ}
    (hnext : scan.next i = scan.advance i (limit.map Int.cast)) (hg : scan.generator = .ok l) {fuel : ℕ}
    (hfuel : (l.filter scan.options.gives).length < fuel) :
    scan.toArray i fuel =
      some (.ok (countDown limit ((l.filter scan.options.gives).filterMap scan.options.target.readEntry))) := by
  induction fuel generalizing scan l limit with
  | zero => cases hfuel
  | succ fuel ih =>
    have hsound := (advance_sound h i (limit.map Int.cast)).1
    unfold Scan.toArray
    rw [hnext]
    unfold Scan.advance at hsound ⊢
    rw [hg] at hsound ⊢
    rcases pull_cases (h.tail l hg) with ⟨hpull, hnil⟩ | ⟨e, key, rest, hpull, hfilter, hkey, -, -, -⟩
    · simp only [hpull, hnil, List.filterMap_nil, countDown_nil]
    · simp only [hpull] at hsound ⊢
      have hread : scan.options.target.readEntry e = some (key, e.2) := by
        unfold ScanMap.readEntry
        rw [hkey]
      rw [hfilter, List.filterMap_cons_some hread]
      rw [hfilter, List.length_cons] at hfuel
      have hlimit : (limit.map Int.cast).map (· - 1) = (limit.map (· - 1)).map (Int.cast (R := ℚ)) := by
        cases limit with
        | none => rfl
        | some n => simp
      obtain ⟨scan₁, hscan₁⟩ : ∃ scan₁ : Scan V, scan₁ = { scan with
        generator := .ok rest
        iterators := scan.iterators.set i ⟨limit.map Int.cast, some e.1, false⟩
        given := .entry e.1 } := ⟨_, rfl⟩
      rw [← hscan₁] at hsound ⊢
      have hit : scan₁.iterators[i]? = some ⟨limit.map Int.cast, some e.1, false⟩ := by
        rw [hscan₁]
        exact List.getElem?_set_self hi
      by_cases hone : limit = some 1
      · subst hone
        obtain ⟨fuel, rfl⟩ := Nat.exists_eq_succ_of_ne_zero (Nat.ne_zero_of_lt (Nat.lt_of_succ_lt_succ hfuel))
        have hmet : scan₁.toArray i (fuel + 1) = some (.ok []) := by
          have hmet := next_met hit (by simp)
          unfold Scan.toArray
          generalize scan₁.next i = r at hmet
          obtain ⟨r, scan₂⟩ := r
          obtain rfl : r = .ok none := hmet
          rfl
        rw [countDown_one]
        simp only [Nat.succ_eq_add_one, hmet]
        rfl
      · have hgoes := next_goes_on hit (by
          rw [hlimit]
          intro h
          obtain ⟨n, hn, hzero⟩ := Option.map_eq_some_iff.mp h
          obtain ⟨m, rfl, rfl⟩ := Option.map_eq_some_iff.mp hn
          have hm : m - 1 = 0 := by exact_mod_cast hzero
          exact hone (congrArg some (by omega)))
        rw [hlimit] at hgoes
        have hlen : i < scan₁.iterators.length := by
          rw [hscan₁]
          simpa using hi
        have hoptions : scan₁.options = scan.options := by rw [hscan₁]
        have hrest := ih (l := rest) hsound hlen hgoes (by rw [hscan₁]) (by rw [hoptions]; omega)
        rw [countDown_cons hone, hrest, hoptions]
        rfl

/-! ## Scans -/

theorem filter_gives {fromKey : String} (hfrom : options.fromKey = .ok fromKey) (entries : List (String × V)) :
    (entries.filter fun e => fromKey ≤ e.1).filter options.gives = entries.filter options.gives := by
  rw [List.filter_filter]
  refine List.filter_congr fun e _ => ?_
  cases hgives : options.gives e with
  | false => rfl
  | true =>
    unfold ScanOptions.gives ScanOptions.inScope at hgives
    rw [hfrom] at hgives
    cases hkey : options.target.readKey e.1 with
    | error err => simp [hkey] at hgives
    | ok key =>
      simp only [hkey, Bool.and_eq_true, decide_eq_true_eq] at hgives
      simp [hgives.1.1]

theorem matching_eq (s : ReadState V indexNames) (henc : options.Encodable) :
    ((s.entries options.target).filter options.gives).filterMap options.target.readEntry = s.matching options := by
  unfold ReadState.matching
  have hreadable := s.readable options.target
  generalize s.entries options.target = entries at hreadable ⊢
  induction entries with
  | nil => rfl
  | cons e entries ih =>
    obtain ⟨key, hkey⟩ := hreadable e (List.mem_cons_self ..)
    have ih := ih fun e he => hreadable e (List.mem_cons_of_mem _ he)
    have hread : options.target.readEntry e = some (key, e.2) := by
      unfold ScanMap.readEntry
      rw [hkey]
    have hscope : options.gives e = options.includes key := inScope_eq_includes henc hkey
    rw [List.filterMap_cons_some hread, List.filter_cons, List.filter_cons, hscope]
    cases options.includes key with
    | true => exact (List.filterMap_cons_some hread).trans (congrArg _ ih)
    | false => exact ih

theorem readKey_before {target : ScanMap} {k₁ k₂ : String} {key₁ key₂ : ScanKey} (h₁ : target.readKey k₁ = .ok key₁)
    (h₂ : target.readKey k₂ = .ok key₂) (h : k₁ < k₂) : key₁.Before key₂ := by
  cases target with
  | primary start =>
    obtain rfl := Except.ok.inj h₁
    obtain rfl := Except.ok.inj h₂
    exact h
  | index name start =>
    obtain ⟨⟨secondary₁, primary₁⟩, hdec₁, rfl⟩ := Fallible.map_ok h₁
    obtain ⟨⟨secondary₂, primary₂⟩, hdec₂, rfl⟩ := Fallible.map_ok h₂
    obtain ⟨hkey₁, hnot₁⟩ := decodeIndexKey_ok hdec₁
    refine lt_of_le_of_ne ?_ fun heq => ?_
    · have hword : scanWord secondary₁ (some primary₁) ≤ k₂.toList := hkey₁.ge.trans (String.le_iff_toList_le.mp h.le)
      exact (scanWord_le_iff hnot₁ hdec₂).mp hword
    · obtain ⟨rfl, rfl⟩ := Prod.mk.inj (toLex.injective heq)
      have hsame : k₁ = k₂ := String.toList_inj.mp (hkey₁.trans (decodeIndexKey_ok hdec₂).1.symm)
      exact absurd h (hsame ▸ lt_irrefl k₁)

theorem matching_before (s : ReadState V indexNames) (options : ScanOptions) :
    (s.matching options).Pairwise fun a b => a.1.Before b.1 := by
  unfold ReadState.matching
  refine List.Pairwise.filter _ (List.pairwise_filterMap.mpr ((s.entries_ascending options.target).imp ?_))
  have hread {e : String × V} {e' : ScanKey × V} (h : options.target.readEntry e = some e') :
      options.target.readKey e.1 = .ok e'.1 := by
    unfold ScanMap.readEntry at h
    split at h
    · next key hkey =>
      obtain rfl := Option.some.inj h
      exact hkey
    · cases h
  intro a b hlt a' ha b' hb
  exact readKey_before (hread ha) (hread hb) hlt

theorem specified_before (s : ReadState V indexNames) (options : ScanOptions) (limit : Option ℤ) :
    (s.specified options limit).Pairwise fun a b => a.1.Before b.1 := by
  unfold ReadState.specified
  cases limit with
  | none => exact matching_before s options
  | some n => exact (matching_before s options).take

theorem countDown_eq_specified (s : ReadState V indexNames) (options : ScanOptions) (limit : Option ℤ) :
    countDown limit (s.matching options) = s.specified options limit ↔
      (∀ n, limit = some n → 0 < n) ∨ s.matching options = [] := by
  unfold countDown ReadState.specified
  cases limit with
  | none => simp
  | some n =>
    by_cases hn : 0 < n
    · simp [hn]
    · have hzero : n.toNat = 0 := by omega
      simp [hn, hzero]

theorem getScanIterator_of_index (s : ReadState V indexNames) (options : ScanOptions)
    (hindex : ∀ indexName start, options.target = .index indexName start → indexName ∈ indexNames) :
    getScanIterator s options =
      options.fromKey.map fun fromKey => (s.entries options.target).filter fun e => fromKey ≤ e.1 := by
  have hmap : s.mapFor options.target = some (s.entries options.target) := by
    cases ho : options.target with
    | primary start => rfl
    | index name start => exact if_pos (hindex name start ho)
  unfold getScanIterator
  rw [hmap]
  cases options.fromKey <;> rfl

/-- **Reading a scan to the end**: it gives what it specifies, in the order of the keys,
where the options can be encoded and the limit is positive or there is nothing to give. -/
theorem scan_specified (s : ReadState V indexNames) (keyPrefix : Option String) (limit : Option ℤ) (target : ScanMap)
    (hindex : ∀ indexName start, target = .index indexName start → indexName ∈ indexNames) :
    (s.specified ⟨keyPrefix, limit.map Int.cast, target⟩ limit).Pairwise (fun a b => a.1.Before b.1) ∧
    ((∃ enough, ∀ fuel, enough ≤ fuel →
        (openScan s ⟨keyPrefix, limit.map Int.cast, target⟩).newIterator.toArray 0 fuel =
          some (.ok (s.specified ⟨keyPrefix, limit.map Int.cast, target⟩ limit))) ↔
      ScanOptions.Encodable ⟨keyPrefix, limit.map Int.cast, target⟩ ∧
        ((∀ n, limit = some n → 0 < n) ∨ s.matching ⟨keyPrefix, limit.map Int.cast, target⟩ = [])) := by
  refine ⟨specified_before .., ?_⟩
  obtain ⟨options, hoptions⟩ : ∃ options : ScanOptions, options = ⟨keyPrefix, limit.map Int.cast, target⟩ := ⟨_, rfl⟩
  have htarget : options.target = target := by rw [hoptions]
  rw [← hoptions]
  have hsound := (newIterator_sound (openScan_sound s options)).1
  have hgetter := getScanIterator_of_index s options (by rwa [htarget])
  by_cases henc : options.Encodable
  · obtain ⟨fromKey, hfrom⟩ := encodable_iff.mp henc
    have hgen : getScanIterator s options = .ok ((s.entries options.target).filter fun e => fromKey ≤ e.1) := by
      rw [hgetter, hfrom]
      rfl
    have hrun (fuel : ℕ) (hfuel : ((s.entries options.target).filter options.gives).length < fuel) :
        (openScan s options).newIterator.toArray 0 fuel = some (.ok (countDown limit (s.matching options))) := by
      rw [← matching_eq s henc, ← filter_gives hfrom]
      rw [← filter_gives hfrom] at hfuel
      refine toArray_of_advance hsound Nat.one_pos ?_ hgen hfuel
      rw [hoptions]
      rfl
    rw [and_iff_right henc, ← countDown_eq_specified]
    constructor
    · rintro ⟨enough, h⟩
      have hmany := h _ (le_max_left enough (((s.entries options.target).filter options.gives).length + 1))
      rw [hrun _ (lt_of_lt_of_le (Nat.lt_succ_self _) (le_max_right ..))] at hmany
      exact Except.ok.inj (Option.some.inj hmany)
    · exact fun h => ⟨_, fun fuel hfuel => by rw [hrun fuel hfuel, h]⟩
  · refine iff_of_false ?_ fun h => henc h.1
    rintro ⟨enough, h⟩
    cases hfrom : options.fromKey with
    | ok fromKey => exact henc (encodable_iff.mpr ⟨fromKey, hfrom⟩)
    | error err =>
      -- the generator throws when it is asked for the first entry
      have hthrows : (openScan s options).newIterator.toArray 0 (enough + 1) = some (.error err) := by
        have hgen : (openScan s options).newIterator.generator = .error err := by
          change getScanIterator s options = _
          rw [hgetter, hfrom]
          rfl
        have hnext : (openScan s options).newIterator.next 0 =
          (openScan s options).newIterator.advance 0 options.limit := rfl
        unfold Scan.toArray
        rw [hnext]
        unfold Scan.advance
        rw [hgen]
      rw [h _ (Nat.le_succ enough)] at hthrows
      cases hthrows

/-- The primary map of one entry. -/
def oneEntry : ReadState ℕ [] where
  map := [("a", 1)]
  indexes := fun _ => []
  map_sorted := List.pairwise_singleton _ _
  index_sorted := fun _ => .nil
  index_keys := fun _ _ h => absurd h List.not_mem_nil

theorem scan_specified_oneEntry :
    (oneEntry.specified ⟨some "a", some 2, .primary (some ⟨"a", false⟩)⟩ (some 2)).Pairwise (fun a b => a.1.Before b.1) ∧
    ((∃ enough, ∀ fuel, enough ≤ fuel →
        (openScan oneEntry ⟨some "a", some 2, .primary (some ⟨"a", false⟩)⟩).newIterator.toArray 0 fuel =
          some (.ok (oneEntry.specified ⟨some "a", some 2, .primary (some ⟨"a", false⟩)⟩ (some 2)))) ↔
      ScanOptions.Encodable ⟨some "a", some 2, .primary (some ⟨"a", false⟩)⟩ ∧
        ((∀ n : ℤ, some 2 = some n → 0 < n) ∨
          oneEntry.matching ⟨some "a", some 2, .primary (some ⟨"a", false⟩)⟩ = [])) :=
  scan_specified oneEntry (some "a") (some 2) (.primary (some ⟨"a", false⟩)) (fun _ _ h => by cases h)

/-- A limit of 0 is no limit. -/
theorem scan_limit_zero : ¬ ∀ (s : ReadState ℕ []) (keyPrefix : Option String) (limit : Option ℤ)
    (start : Option (Start String)), ∃ enough, ∀ fuel, enough ≤ fuel →
      (openScan s ⟨keyPrefix, limit.map Int.cast, .primary start⟩).newIterator.toArray 0 fuel =
        some (.ok (s.specified ⟨keyPrefix, limit.map Int.cast, .primary start⟩ limit)) := by
  intro h
  obtain ⟨enough, h⟩ := h oneEntry none (some 0) none
  have hread : (openScan oneEntry ⟨none, some 0, .primary none⟩).newIterator.toArray 0 (enough + 2) =
      some (.ok [(.primary "a", 1)]) := by
    have hle : "" ≤ "a" := by decide +kernel
    have hgen : getScanIterator oneEntry ⟨none, some 0, .primary none⟩ = .ok [("a", 1)] := by
      simp [getScanIterator, ReadState.mapFor, ScanOptions.fromKey, fromKeyForNonIndexScan, oneEntry, bind, Except.bind,
        hle]
    simp [Scan.toArray, Scan.next, Scan.newIterator, openScan, Scan.advance, hgen, pull, ScanMap.readKey, startsWith,
      ScanMap.skips, Scan.finish, Except.map]
  have h := (h (enough + 2) (by omega)).symm.trans hread
  exact absurd (Except.ok.inj (Option.some.inj h)) (by simp [ReadState.specified])

end ZeroSync.Subscriptions
