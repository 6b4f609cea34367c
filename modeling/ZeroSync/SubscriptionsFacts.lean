/-
The keys that a scan gives (`inScope`), and the ones among them that
`scanInfoMatchesKey` takes for irrelevant (`gap`).
-/
import ZeroSync.Subscriptions
import ZeroSync.DbIndexFacts
import ZeroSync.PrefixOrder
import ZeroSync.Fallible
import Mathlib.Data.List.TakeWhile

namespace ZeroSync.Subscriptions

variable {V R : Type} {indexNames : List IndexName} {options : ScanOptions} {key k : String}

/-- A key that a scan gives when it is in the map. -/
def ScanOptions.inScope (options : ScanOptions) (mapKey : String) : Bool :=
  match options.fromKey, options.target.readKey mapKey with
  | .ok fromKey, .ok key =>
    fromKey ≤ mapKey && startsWith key.keyToMatch (options.keyPrefix.getD "") && !options.target.skips key
  | _, _ => false

/-- A key that a scan gives and that `scanInfoMatchesKey` takes for irrelevant: any
key, where the limit is not positive; in an index, a key with the secondary key of
a start that is exclusive and has a primary key too, and a key of another
secondary key whose primary key does not come after the primary key of the start. -/
def ScanOptions.gap (options : ScanOptions) (mapKey : String) : Bool :=
  options.inScope mapKey &&
    match options.target, options.target.readKey mapKey with
    | .primary _, _ => options.limit.any (· ≤ 0)
    | .index _ (some start), .ok (.index secondary primary) =>
      let (startSecondary, startPrimary) := normalizeScanOptionIndexedStartKey start.key
      (start.exclusive && startSecondary ≠ "" && startPrimary.isSome && secondary = startSecondary) ||
        (truthy startPrimary).any fun startPrimary =>
          secondary ≠ startSecondary && (primary < startPrimary || (start.exclusive && primary = startPrimary))
    | _, _ => false

/-- The name that diffs have for the map of a scan. -/
def ScanMap.diffName : ScanMap → String
  | .primary _ => ""
  | .index indexName _ => indexName

theorem truthy_some {s : Option String} {x : String} (h : truthy s = some x) : s = some x ∧ x ≠ "" := by
  obtain ⟨rfl, hx⟩ := Option.filter_eq_some_iff.mp h
  exact ⟨rfl, of_decide_eq_true hx⟩

theorem startsWith_iff {s start : String} : startsWith s start = true ↔ start.toList <+: s.toList :=
  List.isPrefixOf_iff_prefix

/-! ## Encoded keys -/

theorem least_char (c : Char) : '\x00' ≤ c := by
  change (0 : UInt32) ≤ c.val
  exact UInt32.le_iff_toNat_le.mpr (Nat.zero_le _)

theorem decodeIndexKey_ok {secondary primary : String} (h : decodeIndexKey key = .ok (secondary, primary)) :
    key.toList = '\x00' :: secondary.toList ++ '\x00' :: primary.toList ∧ '\x00' ∉ secondary.toList := by
  unfold decodeIndexKey at h
  split at h
  · cases h
  · next version rest heq =>
    split at h
    · cases h
    · next hversion =>
      obtain rfl := not_not.mp hversion
      split at h
      · cases h
      · next separator primary' hdrop =>
        obtain ⟨rfl, rfl⟩ := Prod.mk.inj (Except.ok.inj h)
        have hsep : separator = '\x00' := by
          have hne : rest.dropWhile (fun c => decide (c ≠ KEY_SEPARATOR)) ≠ [] := by
            rw [hdrop]
            exact List.cons_ne_nil _ _
          have hhead := List.head_dropWhile_not (fun c => decide (c ≠ KEY_SEPARATOR)) hne
          simp only [hdrop, List.head_cons, decide_eq_false_iff_not, not_not] at hhead
          exact hhead
        rw [String.toList_ofList, String.toList_ofList, heq]
        refine ⟨?_, fun hmem => ?_⟩
        · rw [List.cons_append, ← hsep, ← hdrop]
          exact congrArg _ (List.takeWhile_append_dropWhile ..).symm
        · have hne := List.mem_takeWhile_imp (p := fun c => decide (c ≠ KEY_SEPARATOR)) hmem
          exact absurd rfl (of_decide_eq_true hne)

theorem decodeIndexKey_encode {secondary primary : String} (h : encodeIndexKey secondary primary = .ok key) :
    decodeIndexKey key = .ok (secondary, primary) := by
  obtain ⟨hs, hkey⟩ := encodeIndexKey_eq h
  have hp : ∀ c ∈ secondary.toList, decide (c ≠ KEY_SEPARATOR) = true := by
    intro c hc
    refine decide_eq_true fun heq => hs ?_
    rw [← show c = '\x00' from heq]
    exact hc
  have htake : (secondary.toList ++ '\x00' :: primary.toList).takeWhile (fun c => decide (c ≠ KEY_SEPARATOR)) =
      secondary.toList := by
    rw [List.takeWhile_append_of_pos hp]
    simp [KEY_SEPARATOR]
  have hdrop : (secondary.toList ++ '\x00' :: primary.toList).dropWhile (fun c => decide (c ≠ KEY_SEPARATOR)) =
      '\x00' :: primary.toList := by
    rw [List.dropWhile_append_of_pos hp]
    simp [KEY_SEPARATOR]
  unfold decodeIndexKey
  rw [hkey, List.cons_append]
  simp only [ne_eq, not_true_eq_false, if_false]
  simp only [ne_eq] at htake hdrop
  rw [hdrop, htake]
  simp only [String.ofList_toList]

theorem encode_of_decode {secondary primary : String} (h : decodeIndexKey key = .ok (secondary, primary)) :
    encodeIndexKey secondary primary = .ok key := by
  obtain ⟨hkey, hnot⟩ := decodeIndexKey_ok h
  unfold encodeIndexKey
  rw [if_neg hnot, ← hkey, String.ofList_toList]

/-- The start key of an index scan, as a word. -/
def scanWord (secondary : String) : Option String → List Char
  | none => '\x00' :: secondary.toList
  | some primary => '\x00' :: secondary.toList ++ '\x00' :: primary.toList

theorem encodeIndexScanKey_ok {secondary : String} {primary : Option String}
    (h : encodeIndexScanKey secondary primary = .ok k) :
    '\x00' ∉ secondary.toList ∧ k.toList = scanWord secondary primary := by
  unfold encodeIndexScanKey at h
  cases he : encodeIndexKey secondary (primary.getD "") with
  | error e =>
    rw [he] at h
    cases primary <;> cases h
  | ok x =>
    obtain ⟨hnot, hx⟩ := encodeIndexKey_eq he
    rw [he] at h
    refine ⟨hnot, ?_⟩
    cases primary with
    | none =>
      obtain rfl := Except.ok.inj h
      rw [String.toList_ofList, hx]
      simp only [Option.getD_none, String.toList_empty]
      exact List.dropLast_concat
    | some primary =>
      obtain rfl := Except.ok.inj h
      exact hx

/-! ## Where a scan starts -/

theorem le_fromKeyForNonIndexScan (keyPrefix : Option String) (start : Option (Start String)) :
    keyPrefix.getD "" ≤ fromKeyForNonIndexScan keyPrefix start ∧
      ∀ st, start = some st → st.key ≤ fromKeyForNonIndexScan keyPrefix start := by
  cases start with
  | none => exact ⟨le_refl _, fun _ h => by cases h⟩
  | some st =>
    unfold fromKeyForNonIndexScan
    dsimp only
    split
    · next hgt =>
      refine ⟨le_of_lt hgt, fun st' h => ?_⟩
      obtain rfl := Option.some.inj h
      exact le_refl _
    · next hgt =>
      refine ⟨le_refl _, fun st' h => ?_⟩
      obtain rfl := Option.some.inj h
      exact not_lt.mp hgt

theorem fromKeyForIndexScan_ok {keyPrefix : Option String} {start : Option (Start IndexedStartKey)} {fromKey : String}
    (h : fromKeyForIndexScanInternal keyPrefix start = .ok fromKey) :
    (∀ p, keyPrefix = some p → '\x00' ∉ p.toList ∧ '\x00' :: p.toList ≤ fromKey.toList) ∧
      ∀ st, start = some st →
        '\x00' ∉ (normalizeScanOptionIndexedStartKey st.key).1.toList ∧
          scanWord (normalizeScanOptionIndexedStartKey st.key).1 (normalizeScanOptionIndexedStartKey st.key).2 ≤
            fromKey.toList := by
  unfold fromKeyForIndexScanInternal at h
  obtain ⟨prefix2, hpre, h⟩ := Fallible.bind_ok h
  have hword : ∀ p, keyPrefix = some p → '\x00' ∉ p.toList ∧ prefix2.toList = '\x00' :: p.toList := by
    rintro p rfl
    exact encodeIndexScanKey_ok hpre
  cases start with
  | none =>
    obtain rfl := Except.ok.inj h
    exact ⟨fun p hp => ⟨(hword p hp).1, (hword p hp).2.ge⟩, fun st h => by cases h⟩
  | some st =>
    obtain ⟨startKey, hstart, h⟩ := Fallible.bind_ok h
    obtain ⟨hnot, hstart⟩ := encodeIndexScanKey_ok hstart
    obtain rfl := Except.ok.inj h
    by_cases hgt : startKey > prefix2
    · rw [if_pos hgt]
      refine ⟨fun p hp => ⟨(hword p hp).1, ?_⟩, fun st' h => ?_⟩
      · rw [← (hword p hp).2]
        exact String.le_iff_toList_le.mp (le_of_lt hgt)
      · obtain rfl := Option.some.inj h
        exact ⟨hnot, hstart.ge⟩
    · rw [if_neg hgt]
      refine ⟨fun p hp => ⟨(hword p hp).1, (hword p hp).2.ge⟩, fun st' h => ?_⟩
      obtain rfl := Option.some.inj h
      exact ⟨hnot, hstart.ge.trans (String.le_iff_toList_le.mp (not_lt.mp hgt))⟩

theorem inScope_primary {start : Option (Start String)} (ho : options.target = .primary start)
    (h : options.inScope k = true) :
    fromKeyForNonIndexScan options.keyPrefix start ≤ k ∧ startsWith k (options.keyPrefix.getD "") = true ∧
      ∀ st, start = some st → st.exclusive = true → k ≠ st.key := by
  unfold ScanOptions.inScope ScanOptions.fromKey at h
  rw [ho] at h
  simp only [ScanMap.readKey, ScanKey.keyToMatch, Bool.and_eq_true, decide_eq_true_eq, Bool.not_eq_true'] at h
  obtain ⟨⟨hle, hstarts⟩, hskip⟩ := h
  refine ⟨hle, hstarts, fun st hst hex heq => ?_⟩
  subst hst
  simp [ScanMap.skips, hex, shouldSkipNonIndexScan, heq] at hskip

theorem inScope_index {name : IndexName} {start : Option (Start IndexedStartKey)} (ho : options.target = .index name start)
    (h : options.inScope k = true) :
    ∃ fromKey secondary primary, fromKeyForIndexScanInternal options.keyPrefix start = .ok fromKey ∧
      decodeIndexKey k = .ok (secondary, primary) ∧ fromKey ≤ k ∧
      startsWith secondary (options.keyPrefix.getD "") = true ∧
      ∀ st, start = some st → st.exclusive = true → shouldSkipIndexScan secondary primary st.key = false := by
  unfold ScanOptions.inScope ScanOptions.fromKey at h
  rw [ho] at h
  dsimp only at h
  cases hfrom : fromKeyForIndexScanInternal options.keyPrefix start with
  | error e => simp [hfrom] at h
  | ok fromKey =>
    rw [hfrom] at h
    cases hdec : decodeIndexKey k with
    | error e => simp [ScanMap.readKey, hdec, Except.map] at h
    | ok parts =>
      obtain ⟨secondary, primary⟩ := parts
      simp only [ScanMap.readKey, hdec, Except.map, ScanKey.keyToMatch, Bool.and_eq_true, decide_eq_true_eq,
        Bool.not_eq_true'] at h
      obtain ⟨⟨hle, hstarts⟩, hskip⟩ := h
      refine ⟨fromKey, secondary, primary, rfl, rfl, hle, hstarts, fun st hst hex => ?_⟩
      subst hst
      simpa [ScanMap.skips, hex] using hskip

theorem le_of_scanWord_le {startSecondary secondary primary : String} {startPrimary : Option String}
    (hstart : '\x00' ∉ startSecondary.toList) (hdec : decodeIndexKey k = .ok (secondary, primary))
    (h : scanWord startSecondary startPrimary ≤ k.toList) :
    startSecondary ≤ secondary ∧ ∀ p, startPrimary = some p → secondary = startSecondary → p ≤ primary := by
  obtain ⟨hkey, hnot⟩ := decodeIndexKey_ok hdec
  rw [hkey] at h
  cases startPrimary with
  | none =>
    rcases PrefixOrder.cons_le_cons.mp h with hlt | ⟨-, h⟩
    · exact absurd hlt (lt_irrefl _)
    · refine ⟨String.le_iff_toList_le.mpr (PrefixOrder.le_of_le_join least_char hstart h), fun p hp => by cases hp⟩
  | some p =>
    rcases PrefixOrder.cons_le_cons.mp h with hlt | ⟨-, h⟩
    · exact absurd hlt (lt_irrefl _)
    · rcases PrefixOrder.join_le least_char hstart hnot h with hlt | ⟨heq, hle⟩
      · refine ⟨le_of_lt (String.lt_iff_toList_lt.mpr hlt), fun _ _ heq => ?_⟩
        rw [heq] at hlt
        exact absurd hlt (lt_irrefl _)
      · refine ⟨String.le_iff_toList_le.mpr heq.le, fun p' hp' _ => ?_⟩
        obtain rfl := Option.some.inj hp'
        exact String.le_iff_toList_le.mpr hle

/-! ## What is taken for relevant -/

/-- The end of what a scan has read, where it goes by it. -/
def ScanSubscriptionInfo.bound (info : ScanSubscriptionInfo) : Option String :=
  if info.options.limit.isSome then info.inclusiveLimitKey else none

theorem isKeyPastInclusiveLimit_eq {info : ScanSubscriptionInfo} (h : ∀ b, info.bound = some b → k ≤ b) :
    isKeyPastInclusiveLimit info k = false := by
  unfold isKeyPastInclusiveLimit
  unfold ScanSubscriptionInfo.bound at h
  cases hlimit : info.options.limit with
  | none => rfl
  | some limit =>
    cases hkey : info.inclusiveLimitKey with
    | none => rfl
    | some b =>
      rw [hlimit, hkey] at h
      exact decide_eq_false (not_lt.mpr (h b rfl))

theorem matchesPrimaryKey_of_inScope {info : ScanSubscriptionInfo} {start : Option (Start String)}
    (ho : options.target = .primary start) (hinfo : info.options = toDbScanOptions options)
    (h : options.inScope k = true) (hlimit : options.limit.any (· ≤ 0) = false)
    (hbound : ∀ b, info.bound = some b → k ≤ b) : matchesPrimaryKey info k = true := by
  obtain ⟨hle, hstarts, hskip⟩ := inScope_primary ho h
  have hpast := isKeyPastInclusiveLimit_eq hbound
  have hpre : info.options.keyPrefix = options.keyPrefix ∧ info.options.limit = options.limit := by
    rw [hinfo]
    unfold toDbScanOptions
    rw [ho]
    cases start <;> exact ⟨rfl, rfl⟩
  unfold matchesPrimaryKey
  dsimp only
  rw [hpre.2, hlimit]
  simp only [Bool.false_eq_true, if_false]
  split
  · rfl
  · have hnoPrefix : ((truthy info.options.keyPrefix).any fun p => !startsWith k p || isKeyPastInclusiveLimit info k) =
        false := by
      cases hp : truthy info.options.keyPrefix with
      | none => rfl
      | some p =>
        rw [hpre.1] at hp
        rw [(truthy_some hp).1] at hstarts
        simpa [hpast] using hstarts
    rw [hnoPrefix]
    simp only [Bool.false_eq_true, if_false]
    have hnoStart : ((truthy info.options.startKey).any fun startKey =>
        (info.options.startExclusive && decide (k ≤ startKey)) || decide (k < startKey) ||
          isKeyPastInclusiveLimit info k) = false := by
      cases hs : truthy info.options.startKey with
      | none => rfl
      | some startKey =>
        have hs := (truthy_some hs).1
        rw [hinfo] at hs ⊢
        unfold toDbScanOptions at hs ⊢
        rw [ho] at hs ⊢
        cases start with
        | none => cases hs
        | some st =>
          obtain rfl : st.key = startKey := Option.some.inj hs
          have hge := le_trans ((le_fromKeyForNonIndexScan options.keyPrefix (some st)).2 st rfl) hle
          have hexcl : (st.exclusive && decide (k ≤ st.key)) = false := by
            cases hex : st.exclusive with
            | false => rfl
            | true => exact decide_eq_false fun hle' => hskip st rfl hex (le_antisymm hle' hge)
          simp only [Option.any_some, hexcl, hpast, Bool.false_or, Bool.or_false]
          exact decide_eq_false (not_lt.mpr hge)
    rw [hnoStart]
    rfl

theorem matchesIndexKey_of_inScope {name : IndexName} {start : Option (Start IndexedStartKey)} {secondary primary : String}
    (ho : options.target = .index name start) (h : options.inScope k = true) (hgap : options.gap k = false)
    (hdec : decodeIndexKey k = .ok (secondary, primary)) :
    matchesIndexKey (toDbScanOptions options) secondary primary = true := by
  obtain ⟨fromKey, secondary', primary', hfrom, hdec', hle, hstarts, hskip⟩ := inScope_index ho h
  obtain ⟨rfl, rfl⟩ := Prod.mk.inj (Except.ok.inj (hdec.symm.trans hdec'))
  have hkeyPrefix : (toDbScanOptions options).keyPrefix = options.keyPrefix := by
    unfold toDbScanOptions
    rw [ho]
    cases start <;> rfl
  unfold matchesIndexKey
  have hnoPrefix : ((truthy (toDbScanOptions options).keyPrefix).any fun p => !startsWith secondary p) = false := by
    rw [hkeyPrefix]
    cases hp : truthy options.keyPrefix with
    | none => rfl
    | some p =>
      rw [(truthy_some hp).1] at hstarts
      simpa using hstarts
  rw [hnoPrefix]
  simp only [Bool.false_eq_true, if_false]
  cases start with
  | none =>
    unfold toDbScanOptions
    rw [ho]
    rfl
  | some st =>
    obtain ⟨hnot, hword⟩ := (fromKeyForIndexScan_ok hfrom).2 st rfl
    have hskip := hskip st rfl
    unfold ScanOptions.gap at hgap
    rw [h, ho] at hgap
    simp only [ScanMap.readKey, hdec, Except.map, Bool.true_and] at hgap
    unfold shouldSkipIndexScan at hskip
    unfold toDbScanOptions
    rw [ho]
    dsimp only
    obtain ⟨startSecondary, startPrimary, hnorm⟩ :
      ∃ startSecondary startPrimary, normalizeScanOptionIndexedStartKey st.key = (startSecondary, startPrimary) :=
      ⟨_, _, rfl⟩
    simp only [hnorm] at hnot hword hgap hskip ⊢
    obtain ⟨hsecondary, hprimary⟩ :=
      le_of_scanWord_le hnot hdec (le_trans hword (String.le_iff_toList_le.mp hle))
    obtain ⟨hgap₁, hgap₂⟩ := Bool.or_eq_false_iff.mp hgap
    have hnoSecondary : ((truthy (some startSecondary)).any fun s =>
        (st.exclusive && decide (secondary ≤ s)) || decide (secondary < s)) = false := by
      cases hs : truthy (some startSecondary) with
      | none => rfl
      | some s =>
        obtain ⟨hs, hne⟩ := truthy_some hs
        obtain rfl := Option.some.inj hs
        have hexcl : (st.exclusive && decide (secondary ≤ startSecondary)) = false := by
          cases hex : st.exclusive with
          | false => rfl
          | true =>
            refine decide_eq_false fun hle' => ?_
            obtain rfl := le_antisymm hle' hsecondary
            -- An entry of that secondary key is given where the start has a primary key, and that is in the gap.
            cases startPrimary with
            | none => simp [hex] at hskip
            | some p => simp [hex, hne] at hgap₁
        simp only [Option.any_some, hexcl, Bool.false_or]
        exact decide_eq_false (not_lt.mpr hsecondary)
    rw [hnoSecondary]
    simp only [Bool.false_eq_true, if_false]
    have hnoPrimary : ((truthy startPrimary).any fun p =>
        (st.exclusive && decide (primary ≤ p)) || decide (primary < p)) = false := by
      cases hp : truthy startPrimary with
      | none => rfl
      | some p =>
        rw [hp] at hgap₂
        obtain ⟨rfl, hne⟩ := truthy_some hp
        simp only [Option.any_some] at hgap₂ ⊢
        by_cases heq : secondary = startSecondary
        · have hge := hprimary p rfl heq
          have hexcl : (st.exclusive && decide (primary ≤ p)) = false := by
            cases hex : st.exclusive with
            | false => rfl
            | true =>
              refine decide_eq_false fun hle' => ?_
              obtain rfl := le_antisymm hle' hge
              simp [hex, heq] at hskip
          simp only [hexcl, Bool.false_or]
          exact decide_eq_false (not_lt.mpr hge)
        · have hne' : decide (secondary ≠ startSecondary) = true := decide_eq_true heq
          rw [hne', Bool.true_and] at hgap₂
          obtain ⟨hlt, hexcl⟩ := Bool.or_eq_false_iff.mp hgap₂
          have hlt' := not_lt.mp (of_decide_eq_false hlt)
          have hexcl' : (st.exclusive && decide (primary ≤ p)) = false := by
            cases hex : st.exclusive with
            | false => rfl
            | true =>
              rw [hex, Bool.true_and] at hexcl
              exact decide_eq_false fun hle' => of_decide_eq_false hexcl (le_antisymm hle' hlt')
          simp only [hexcl', hlt, Bool.false_or]
    rw [hnoPrimary]
    rfl

/-- **What a scan gives is taken for relevant, up to where it has been read, but
for its gap.** -/
theorem scanInfoMatchesKey_of_inScope {info : ScanSubscriptionInfo} (hinfo : info.options = toDbScanOptions options)
    (h : options.inScope k = true) (hgap : options.gap k = false) (hbound : ∀ b, info.bound = some b → k ≤ b) :
    scanInfoMatchesKey info options.target.diffName k = .ok true := by
  unfold scanInfoMatchesKey
  rw [hinfo]
  dsimp only
  cases ho : options.target with
  | primary start =>
    have hname : (toDbScanOptions options).indexName = none := by
      unfold toDbScanOptions
      rw [ho]
      cases start <;> rfl
    have hlimit : options.limit.any (· ≤ 0) = false := by
      unfold ScanOptions.gap at hgap
      rw [h, ho] at hgap
      simpa using hgap
    have hmatch := matchesPrimaryKey_of_inScope ho hinfo h hlimit hbound
    rw [hname]
    simp only [ScanMap.diffName, Option.getD_none, ne_eq, not_true_eq_false, if_false, if_true, hmatch]
  | index name start =>
    have hname : (toDbScanOptions options).indexName = some name.1 := by
      unfold toDbScanOptions
      rw [ho]
      cases start <;> rfl
    obtain ⟨fromKey, secondary, primary, -, hdec, -⟩ := inScope_index ho h
    have hmatch := matchesIndexKey_of_inScope ho h hgap hdec
    rw [hname]
    simp only [ScanMap.diffName, Option.getD_some, ne_eq, not_true_eq_false, if_false, if_neg name.2]
    split
    · rfl
    · rw [hdec]
      exact congrArg _ hmatch

end ZeroSync.Subscriptions
