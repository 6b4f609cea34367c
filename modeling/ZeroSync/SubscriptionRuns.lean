/-
Two runs of a body, on two states that agree on what the first has read.

The generators of a scan in the two runs agree on the keys in its scope, up to the
key at which its limit is met (`Alike`). That key is noted late, when the iterator
is asked for one entry more, so the runs are compared with what has been noted at
the end of the first (`Later`).
-/
import ZeroSync.SubscriptionsFacts

namespace ZeroSync.Subscriptions

variable {V R : Type} {indexNames : List IndexName} {options : ScanOptions} {l l' : List (String × V)}

/-! ## What a generator gives -/

/-- What is left of the entries of a scan. -/
structure Tail (options : ScanOptions) (l : List (String × V)) : Prop where
  sorted : l.Pairwise (·.1 < ·.1)
  started : ∀ e ∈ l, ∃ fromKey, options.fromKey = .ok fromKey ∧ fromKey ≤ e.1
  readable : ∀ e ∈ l, ∃ key, options.target.readKey e.1 = .ok key

theorem Tail.nil : Tail options ([] : List (String × V)) :=
  ⟨List.Pairwise.nil, fun _ h => absurd h List.not_mem_nil, fun _ h => absurd h List.not_mem_nil⟩

theorem Tail.tail {e : String × V} (h : Tail options (e :: l)) : Tail options l :=
  ⟨(List.pairwise_cons.mp h.sorted).2, fun e' he => h.started e' (List.mem_cons_of_mem _ he),
    fun e' he => h.readable e' (List.mem_cons_of_mem _ he)⟩

theorem startsWith_of_le {fromKey k₁ k₂ : String} {key₁ key₂ : ScanKey} (hfrom : options.fromKey = .ok fromKey)
    (hle : fromKey ≤ k₁) (hk : k₁ ≤ k₂) (h₁ : options.target.readKey k₁ = .ok key₁)
    (h₂ : options.target.readKey k₂ = .ok key₂) (h : startsWith key₂.keyToMatch (options.keyPrefix.getD "") = true) :
    startsWith key₁.keyToMatch (options.keyPrefix.getD "") = true := by
  unfold ScanOptions.fromKey at hfrom
  cases ho : options.target with
  | primary start =>
    rw [ho] at hfrom h₁ h₂
    obtain rfl := Except.ok.inj hfrom
    obtain rfl := Except.ok.inj h₁
    obtain rfl := Except.ok.inj h₂
    have hpre := le_trans (le_fromKeyForNonIndexScan options.keyPrefix start).1 hle
    exact startsWith_iff.mpr (PrefixOrder.prefix_of_between (String.le_iff_toList_le.mp hpre)
      (String.le_iff_toList_le.mp hk) (startsWith_iff.mp h))
  | index name start =>
    rw [ho] at hfrom h₁ h₂
    cases hp : options.keyPrefix with
    | none => exact startsWith_iff.mpr List.nil_prefix
    | some p =>
      rw [hp] at h
      obtain ⟨⟨secondary₁, primary₁⟩, hdec₁, rfl⟩ := Fallible.map_ok h₁
      obtain ⟨⟨secondary₂, primary₂⟩, hdec₂, rfl⟩ := Fallible.map_ok h₂
      obtain ⟨hnot, hword⟩ := (fromKeyForIndexScan_ok hfrom).1 p hp
      obtain ⟨hkey₁, -⟩ := decodeIndexKey_ok hdec₁
      obtain ⟨hkey₂, -⟩ := decodeIndexKey_ok hdec₂
      have hlong : '\x00' :: p.toList <+: k₁.toList := by
        refine PrefixOrder.prefix_of_between (hword.trans (String.le_iff_toList_le.mp hle))
          (String.le_iff_toList_le.mp hk) ?_
        rw [hkey₂]
        exact List.cons_prefix_cons.mpr ⟨rfl, (PrefixOrder.prefix_join hnot).mpr (startsWith_iff.mp h)⟩
      rw [hkey₁] at hlong
      exact startsWith_iff.mpr ((PrefixOrder.prefix_join hnot).mp (List.cons_prefix_cons.mp hlong).2)

/-- Whether a scan gives an entry. -/
def ScanOptions.gives (options : ScanOptions) (e : String × V) : Bool := options.inScope e.1

theorem inScope_eq {fromKey k : String} {key : ScanKey} (hfrom : options.fromKey = .ok fromKey) (hle : fromKey ≤ k)
    (hkey : options.target.readKey k = .ok key) :
    options.inScope k = (startsWith key.keyToMatch (options.keyPrefix.getD "") && !options.target.skips key) := by
  unfold ScanOptions.inScope
  rw [hfrom, hkey]
  simp [hle]

theorem pull_cases (h : Tail options l) :
    (pull options l = (.ok none, []) ∧ l.filter options.gives = []) ∨
    ∃ e key rest, pull options l = (.ok (some (e.1, key, e.2)), rest) ∧
      l.filter options.gives = e :: rest.filter options.gives ∧
      options.target.readKey e.1 = .ok key ∧ Tail options rest ∧ e ∈ l ∧ ∀ e' ∈ rest, e.1 < e'.1 := by
  induction l with
  | nil => exact .inl ⟨rfl, rfl⟩
  | cons e l ih =>
    obtain ⟨fromKey, hfrom, hle⟩ := h.started e (List.mem_cons_self ..)
    obtain ⟨key, hkey⟩ := h.readable e (List.mem_cons_self ..)
    have hscope := inScope_eq hfrom hle hkey
    have hbefore := (List.pairwise_cons.mp h.sorted).1
    unfold pull
    simp only [hkey]
    by_cases hstarts : startsWith key.keyToMatch (options.keyPrefix.getD "") = true
    · rw [hstarts]
      by_cases hskip : options.target.skips key = true
      · have hnot : options.gives e = false := by
          unfold ScanOptions.gives
          rw [hscope, hstarts, hskip]
          rfl
        have hfilter : (e :: l).filter options.gives = l.filter options.gives :=
          List.filter_cons_of_neg (by rw [hnot]; exact Bool.false_ne_true)
        rw [hskip, hfilter]
        rcases ih h.tail with hnone | ⟨e', key', rest, hpull, hrest, hkey', htail, hmem, hlt⟩
        · exact .inl hnone
        · exact .inr ⟨e', key', rest, hpull, hrest, hkey', htail, List.mem_cons_of_mem _ hmem, hlt⟩
      · have hgives : options.gives e = true := by
          unfold ScanOptions.gives
          rw [hscope, hstarts, Bool.eq_false_iff.mpr hskip]
          rfl
        rw [Bool.eq_false_iff.mpr hskip]
        exact .inr ⟨e, key, l, rfl, List.filter_cons_of_pos hgives, hkey, h.tail, List.mem_cons_self .., hbefore⟩
    · rw [Bool.eq_false_iff.mpr hstarts]
      refine .inl ⟨rfl, List.filter_eq_nil_iff.mpr fun e' he' hgives => ?_⟩
      -- What comes after a key without the prefix does not have it either.
      have hle' : e.1 ≤ e'.1 := by
        rcases List.mem_cons.mp he' with rfl | he'
        · exact le_refl _
        · exact le_of_lt (hbefore e' he')
      obtain ⟨fromKey', hfrom', hlefrom⟩ := h.started e' he'
      obtain ⟨key', hkey'⟩ := h.readable e' he'
      unfold ScanOptions.gives at hgives
      rw [inScope_eq hfrom' hlefrom hkey'] at hgives
      exact hstarts (startsWith_of_le hfrom hle hle' hkey hkey' (Bool.and_eq_true_iff.mp hgives).1)

/-- Whether an entry does not come after a bound, if there is one. -/
def upTo (bound : Option String) (e : String × V) : Bool := bound.all (e.1 ≤ ·)

theorem upTo_of_le {bound : Option String} {e : String × V} (h : ∀ b, bound = some b → e.1 ≤ b) :
    upTo bound e = true := by
  cases bound with
  | none => rfl
  | some b => exact decide_eq_true (h b rfl)

/-- The entries a scan gives up to a bound. -/
def ScanOptions.givesTo (options : ScanOptions) (bound : Option String) (e : String × V) : Bool :=
  options.gives e && upTo bound e

theorem filter_givesTo (bound : Option String) :
    l.filter (options.givesTo bound) = (l.filter options.gives).filter (upTo bound) := by
  rw [List.filter_filter]
  exact List.filter_congr fun e _ => Bool.and_comm ..

theorem pull_alike {bound : Option String} (h : Tail options l) (h' : Tail options l')
    (hl : l'.filter (options.givesTo bound) = l.filter (options.givesTo bound)) {e : String × V} {key : ScanKey}
    {rest : List (String × V)} (hpull : pull options l = (.ok (some (e.1, key, e.2)), rest))
    (hbound : ∀ b, bound = some b → e.1 ≤ b) :
    ∃ rest', pull options l' = (.ok (some (e.1, key, e.2)), rest') ∧ Tail options rest' ∧
      rest'.filter (options.givesTo bound) = rest.filter (options.givesTo bound) := by
  rcases pull_cases h with ⟨hnone, -⟩ | ⟨e₁, key₁, rest₁, hpull₁, hfilter, hkey₁, -⟩
  · rw [hnone] at hpull
    cases hpull
  · obtain ⟨hsome, rfl⟩ := Prod.mk.inj (hpull₁.symm.trans hpull)
    obtain ⟨hfst, hkeys⟩ := Prod.mk.inj (Option.some.inj (Except.ok.inj hsome))
    obtain ⟨rfl, hsnd⟩ := Prod.mk.inj hkeys
    obtain rfl : e₁ = e := Prod.ext hfst hsnd
    have hupto : upTo bound e₁ = true := upTo_of_le hbound
    have hhead : l'.filter (options.givesTo bound) = e₁ :: rest₁.filter (options.givesTo bound) := by
      rw [hl, filter_givesTo, hfilter, List.filter_cons_of_pos hupto, ← filter_givesTo]
    have hmem : e₁ ∈ l'.filter (options.givesTo bound) := by
      rw [hhead]
      exact List.mem_cons_self ..
    obtain ⟨hmem, hgives⟩ := List.mem_filter.mp hmem
    have hgives := (Bool.and_eq_true_iff.mp hgives).1
    rcases pull_cases h' with ⟨-, hnil⟩ | ⟨e₂, key₂, rest₂, hpull₂, hfilter₂, hkey₂, htail₂, -, hlt⟩
    · have hmem' : e₁ ∈ l'.filter options.gives := List.mem_filter.mpr ⟨hmem, hgives⟩
      rw [hnil] at hmem'
      exact absurd hmem' List.not_mem_nil
    · -- The first entry that the other gives does not come after this one.
      have hle : e₂.1 ≤ e₁.1 := by
        have hmem' : e₁ ∈ l'.filter options.gives := List.mem_filter.mpr ⟨hmem, hgives⟩
        rw [hfilter₂] at hmem'
        rcases List.mem_cons.mp hmem' with rfl | hmem'
        · exact le_refl _
        · exact le_of_lt (hlt e₁ (List.mem_filter.mp hmem').1)
      have hupto₂ : upTo bound e₂ = true := upTo_of_le fun b hb => hle.trans (hbound b hb)
      have hhead₂ : l'.filter (options.givesTo bound) = e₂ :: rest₂.filter (options.givesTo bound) := by
        rw [filter_givesTo, hfilter₂, List.filter_cons_of_pos hupto₂, ← filter_givesTo]
      obtain ⟨rfl, hrest⟩ := List.cons.inj (hhead₂.symm.trans hhead)
      obtain rfl : key₂ = key₁ := Except.ok.inj (hkey₂.symm.trans hkey₁)
      exact ⟨rest₂, hpull₂, htail₂, hrest⟩

theorem pull_none_alike (h : Tail options l) (h' : Tail options l')
    (hl : l'.filter (options.givesTo none) = l.filter (options.givesTo none)) {rest : List (String × V)}
    (hpull : pull options l = (.ok none, rest)) : pull options l' = (.ok none, []) := by
  rcases pull_cases h with ⟨-, hnil⟩ | ⟨e, key, rest', hpull', -⟩
  · rcases pull_cases h' with ⟨hnone, -⟩ | ⟨e', key', rest', -, hfilter', -⟩
    · exact hnone
    · rw [filter_givesTo, filter_givesTo, hnil, hfilter'] at hl
      cases hl
  · rw [hpull'] at hpull
    cases hpull

/-! ## A scan in a run -/

/-- What holds of a scan at any time. -/
structure Scan.Sound (scan : Scan V) : Prop where
  noted : scan.info.options = toDbScanOptions scan.options
  tail : ∀ l, scan.generator = .ok l → Tail scan.options l
  ahead : ∀ l key, scan.generator = .ok l → scan.given = .entry key → ∀ e ∈ l, key < e.1
  ended : ∀ l, scan.generator = .ok l → scan.given = .done → l = []
  closed : scan.info.inclusiveLimitKey ≠ none → scan.generator = .ok []

/-- All that a scan has given comes up to a key, and it has not said that there is no more. -/
def Given.Before (given : Given) (b : String) : Prop :=
  match given with
  | .nothing => True
  | .entry key => key ≤ b
  | .done => False

/-- A scan at a later time of a run: a limit that is met in between is met at the last entry given. -/
structure Later (scan f : Scan V) : Prop where
  options : f.options = scan.options
  noted : f.info.options = scan.info.options
  limit : f.info.inclusiveLimitKey = scan.info.inclusiveLimitKey ∨
    ∃ b, f.info.inclusiveLimitKey = some b ∧ scan.given.Before b
  given : ∀ b, f.given.Before b → scan.given.Before b

theorem Later.refl (scan : Scan V) : Later scan scan := ⟨rfl, rfl, .inl rfl, fun _ h => h⟩

theorem Later.trans {s₁ s₂ s₃ : Scan V} (h₁ : Later s₁ s₂) (h₂ : Later s₂ s₃) : Later s₁ s₃ := by
  refine ⟨h₂.options.trans h₁.options, h₂.noted.trans h₁.noted, ?_, fun b hb => h₁.given b (h₂.given b hb)⟩
  rcases h₂.limit with heq | ⟨b, hb, hbefore⟩
  · rcases h₁.limit with heq' | ⟨b, hb, hbefore⟩
    · exact .inl (heq.trans heq')
    · exact .inr ⟨b, heq.trans hb, hbefore⟩
  · exact .inr ⟨b, hb, h₁.given b hbefore⟩

/-- An iterator of a scan of the primary map that meets its limit has yielded the
last entry that the scan has given. -/
def Scan.LimitInOrder (scan : Scan V) (i : ℕ) : Prop :=
  ∀ it key, scan.iterators[i]? = some it → it.finished = false → it.yielded = some key →
    it.limit.map (· - 1) = some 0 → scan.options.target.isIndex = false → scan.given = .entry key

/-- What a step of a loop comes to. -/
inductive Advanced (scan : Scan V) (i : ℕ) (limit : Option ℚ) : Except ScanError (Option (ScanKey × V)) × Scan V → Prop
  | threw (e : ScanError) (hg : scan.generator = .error e) :
    Advanced scan i limit (.error e, { scan.finish i with generator := .ok [] })
  | ended (l : List (String × V)) (hg : scan.generator = .ok l) (hpull : pull scan.options l = (.ok none, [])) :
    Advanced scan i limit (.ok none, { scan.finish i with generator := .ok [], given := .done })
  | gave (l : List (String × V)) (e : String × V) (key : ScanKey) (rest : List (String × V)) (hg : scan.generator = .ok l)
      (hpull : pull scan.options l = (.ok (some (e.1, key, e.2)), rest)) (hmem : e ∈ l) (htail : Tail scan.options rest)
      (hlt : ∀ e' ∈ rest, e.1 < e'.1) :
    Advanced scan i limit (.ok (some (key, e.2)),
      { scan with
        generator := .ok rest
        iterators := scan.iterators.set i { limit, yielded := some e.1, finished := false }
        given := .entry e.1 })

theorem advance_cases {scan : Scan V} (h : scan.Sound) (i : ℕ) (limit : Option ℚ) :
    Advanced scan i limit (scan.advance i limit) := by
  unfold Scan.advance
  cases hg : scan.generator with
  | error e => exact .threw e hg
  | ok l =>
    rcases pull_cases (h.tail l hg) with ⟨hpull, -⟩ | ⟨e, key, rest, hpull, -, -, htail, hmem, hlt⟩
    · simp only [hpull]
      exact .ended l hg hpull
    · simp only [hpull]
      exact .gave l e key rest hg hpull hmem htail hlt

theorem Scan.Sound.close {scan : Scan V} (h : scan.Sound) (i : ℕ) {given : Given}
    (hgiven : given = scan.given ∨ given = .done) :
    ({ scan.finish i with generator := .ok [], given } : Scan V).Sound ∧
      Later scan { scan.finish i with generator := .ok [], given } := by
  refine ⟨⟨h.noted, ?_, ?_, ?_, fun _ => rfl⟩, rfl, rfl, .inl rfl, ?_⟩
  · intro l hl
    obtain rfl := Except.ok.inj hl
    exact .nil
  · intro l key hl _ e he
    obtain rfl := Except.ok.inj hl
    exact absurd he List.not_mem_nil
  · intro l hl _
    exact (Except.ok.inj hl).symm
  · rcases hgiven with rfl | rfl
    · exact fun _ h => h
    · exact fun _ h => False.elim h

theorem advance_sound {scan : Scan V} (h : scan.Sound) (i : ℕ) (limit : Option ℚ) :
    (scan.advance i limit).2.Sound ∧ Later scan (scan.advance i limit).2 := by
  have hcases := advance_cases h i limit
  generalize scan.advance i limit = r at hcases
  cases hcases with
  | threw e hg => exact h.close i (.inl rfl)
  | ended l hg hpull => exact h.close i (.inr rfl)
  | gave l e key rest hg hpull hmem htail hlt =>
    refine ⟨⟨h.noted, ?_, ?_, ?_, ?_⟩, rfl, rfl, .inl rfl, ?_⟩
    · intro l' hl'
      obtain rfl := Except.ok.inj hl'
      exact htail
    · intro l' key' hl' hkey'
      obtain rfl := Except.ok.inj hl'
      obtain rfl := Given.entry.inj hkey'
      exact hlt
    · intro _ _ hdone
      cases hdone
    · intro hne
      have hnil := hg.symm.trans (h.closed hne)
      obtain rfl := Except.ok.inj hnil
      exact absurd hmem List.not_mem_nil
    · intro b hb
      cases hgiven : scan.given with
      | nothing => trivial
      | entry key' => exact le_trans (le_of_lt (h.ahead l key' hg hgiven e hmem)) hb
      | done =>
        obtain rfl := h.ended l hg hgiven
        exact absurd hmem List.not_mem_nil

theorem next_sound {scan : Scan V} (h : scan.Sound) {i : ℕ} (horder : scan.LimitInOrder i) :
    (scan.next i).2.Sound ∧ Later scan (scan.next i).2 := by
  unfold Scan.next
  cases hit : scan.iterators[i]? with
  | none => exact ⟨h, .refl scan⟩
  | some it =>
    dsimp only
    cases hfinished : it.finished with
    | true => exact ⟨h, .refl scan⟩
    | false =>
      simp only [Bool.false_eq_true, if_false]
      cases hyielded : it.yielded with
      | none => exact advance_sound h i it.limit
      | some key =>
        dsimp only
        split
        · next hlimit =>
          obtain ⟨hclosed, hlater⟩ := h.close i (.inl rfl)
          cases hindex : scan.options.target.isIndex with
          | true => exact ⟨hclosed, hlater⟩
          | false =>
            have hgiven := horder it key hit hfinished hyielded hlimit hindex
            refine ⟨⟨h.noted, hclosed.tail, hclosed.ahead, hclosed.ended, fun _ => rfl⟩, rfl, rfl, .inr ⟨key, rfl, ?_⟩,
              hlater.given⟩
            rw [hgiven]
            exact le_refl key
        · exact advance_sound h i _

theorem finish_sound {scan : Scan V} (h : scan.Sound) (i : ℕ) : (scan.finish i).Sound ∧ Later scan (scan.finish i) :=
  ⟨⟨h.noted, h.tail, h.ahead, h.ended, h.closed⟩, rfl, rfl, .inl rfl, fun _ h => h⟩

theorem stop_sound {scan : Scan V} (h : scan.Sound) (i : ℕ) : (scan.stop i).Sound ∧ Later scan (scan.stop i) := by
  unfold Scan.stop
  cases scan.iterators[i]? with
  | none => exact ⟨h, .refl scan⟩
  | some it =>
    dsimp only
    cases hfinished : it.finished with
    | true => exact ⟨h, .refl scan⟩
    | false =>
      simp only [Bool.false_eq_true, if_false]
      cases it.yielded with
      | none => exact finish_sound h i
      | some key => exact h.close i (.inl rfl)

theorem newIterator_sound {scan : Scan V} (h : scan.Sound) : scan.newIterator.Sound ∧ Later scan scan.newIterator :=
  ⟨⟨h.noted, h.tail, h.ahead, h.ended, h.closed⟩, rfl, rfl, .inl rfl, fun _ h => h⟩

/-! ## The scan in the other run -/

/-- A scan in two runs, when `f` is what it is at the end of the first. -/
structure Alike (f scan scan' : Scan V) : Prop where
  options : scan'.options = scan.options
  info : scan'.info = scan.info
  iterators : scan'.iterators = scan.iterators
  generator : (∃ e, scan.generator = .error e ∧ scan'.generator = .error e) ∨
    ∃ l l', scan.generator = .ok l ∧ scan'.generator = .ok l' ∧ Tail scan.options l' ∧
      l'.filter (scan.options.givesTo f.info.bound) = l.filter (scan.options.givesTo f.info.bound)
  closed : scan.info.inclusiveLimitKey ≠ none → scan'.generator = .ok []

theorem Alike.finish {f scan scan' : Scan V} (h : Alike f scan scan') (i : ℕ) :
    Alike f (scan.finish i) (scan'.finish i) := by
  refine ⟨h.options, h.info, ?_, h.generator, h.closed⟩
  unfold Scan.finish
  rw [h.iterators]

theorem Alike.close {f scan scan' : Scan V} (h : Alike f scan scan') (i : ℕ) (info : ScanSubscriptionInfo)
    (given given' : Given) :
    Alike f { scan.finish i with info, generator := .ok [], given }
      { scan'.finish i with info, generator := .ok [], given := given' } := by
  exact ⟨h.options, rfl, (h.finish i).iterators, .inr ⟨[], [], rfl, rfl, .nil, rfl⟩, fun _ => rfl⟩

theorem advance_alike {f scan scan' : Scan V} (h : Alike f scan scan') (hs : scan.Sound) (i : ℕ) (limit : Option ℚ)
    (hlater : Later (scan.advance i limit).2 f) :
    (scan'.advance i limit).1 = (scan.advance i limit).1 ∧ Alike f (scan.advance i limit).2 (scan'.advance i limit).2 := by
  have hcases := advance_cases hs i limit
  generalize scan.advance i limit = r at hcases hlater
  unfold Scan.advance
  rcases h.generator with ⟨e, hg, hg'⟩ | ⟨l, l', hg, hg', htail', hfilter⟩
  · cases hcases with
    | threw e' hthrew =>
      obtain rfl := Except.error.inj (hg.symm.trans hthrew)
      simp only [hg']
      refine ⟨trivial, ?_⟩
      have hclose := h.close i scan.info scan.given scan'.given
      rw [← h.info] at hclose
      exact ⟨hclose.options, h.info, hclose.iterators, hclose.generator, fun _ => rfl⟩
    | ended l hok hpull => cases hg.symm.trans hok
    | gave l e' key rest hok hpull hmem htail hlt => cases hg.symm.trans hok
  · simp only [hg']
    -- The limit is met later, if it is met at all, and not before what is given now.
    have hbound : ∀ given : Given, (∀ b, f.info.inclusiveLimitKey = some b → scan.info.inclusiveLimitKey ≠ none ∨
        given.Before b) → scan.info.inclusiveLimitKey = none → ∀ b, f.info.bound = some b → given.Before b := by
      intro given hor hnone b hb
      unfold ScanSubscriptionInfo.bound at hb
      split at hb
      · rcases hor b hb with hne | hbefore
        · exact absurd hnone hne
        · exact hbefore
      · cases hb
    cases hcases with
    | threw e' hthrew => cases hg.symm.trans hthrew
    | ended l₁ hok hpull =>
      obtain rfl := Except.ok.inj (hg.symm.trans hok)
      have hpull' : pull scan.options l' = (.ok none, []) := by
        by_cases hclosed : scan.info.inclusiveLimitKey = none
        · have hnone : f.info.bound = none := by
            refine Option.eq_none_iff_forall_not_mem.mpr fun b hb => ?_
            refine hbound .done (fun b' hb' => ?_) hclosed b hb
            rcases hlater.limit with heq | ⟨b'', hb'', hbefore⟩
            · exact .inl fun hn => by rw [heq] at hb'; exact Option.some_ne_none _ (hb'.symm.trans hn)
            · exact .inr hbefore
          rw [hnone] at hfilter
          exact pull_none_alike (hs.tail l hg) htail' hfilter hpull
        · obtain rfl := Except.ok.inj (hg'.symm.trans (h.closed hclosed))
          rfl
      rw [h.options, hpull']
      have hclose := h.close i scan.info .done .done
      refine ⟨rfl, hclose.options, h.info, hclose.iterators, hclose.generator, fun _ => rfl⟩
    | gave l₁ e key rest hok hpull hmem htail hlt =>
      obtain rfl := Except.ok.inj (hg.symm.trans hok)
      have hclosed : scan.info.inclusiveLimitKey = none := by
        by_contra hne
        obtain rfl := Except.ok.inj (hg.symm.trans (hs.closed hne))
        exact List.not_mem_nil hmem
      have hle : ∀ b, f.info.bound = some b → e.1 ≤ b := by
        intro b hb
        refine hbound (.entry e.1) (fun b' hb' => ?_) hclosed b hb
        rcases hlater.limit with heq | ⟨b'', hb'', hbefore⟩
        · exact .inl fun hn => by rw [heq] at hb'; exact Option.some_ne_none _ (hb'.symm.trans hn)
        · obtain rfl := Option.some.inj (hb'.symm.trans hb'')
          exact .inr hbefore
      obtain ⟨rest', hpull', htail'', hrest⟩ := pull_alike (hs.tail l hg) htail' hfilter hpull hle
      rw [h.options, hpull']
      refine ⟨rfl, rfl, h.info, ?_, .inr ⟨rest, rest', rfl, rfl, htail'', hrest⟩, fun hne => absurd hclosed hne⟩
      dsimp only
      rw [h.iterators]

theorem next_alike {f scan scan' : Scan V} (h : Alike f scan scan') (hs : scan.Sound) {i : ℕ}
    (hlater : Later (scan.next i).2 f) :
    (scan'.next i).1 = (scan.next i).1 ∧ Alike f (scan.next i).2 (scan'.next i).2 := by
  unfold Scan.next at hlater ⊢
  rw [h.iterators]
  cases hit : scan.iterators[i]? with
  | none => exact ⟨rfl, h⟩
  | some it =>
    rw [hit] at hlater
    simp only at hlater ⊢
    cases hfinished : it.finished with
    | true => exact ⟨rfl, h⟩
    | false =>
      rw [hfinished] at hlater
      simp only [Bool.false_eq_true, if_false] at hlater ⊢
      cases hyielded : it.yielded with
      | none =>
        rw [hyielded] at hlater
        exact advance_alike h hs i it.limit hlater
      | some key =>
        rw [hyielded] at hlater
        simp only at hlater ⊢
        by_cases hlimit : it.limit.map (· - 1) = some 0
        · rw [if_pos hlimit, if_pos hlimit, h.options, h.info]
          exact ⟨rfl, h.close i _ _ _⟩
        · rw [if_neg hlimit] at hlater
          rw [if_neg hlimit, if_neg hlimit]
          exact advance_alike h hs i _ hlater

theorem stop_alike {f scan scan' : Scan V} (h : Alike f scan scan') (i : ℕ) : Alike f (scan.stop i) (scan'.stop i) := by
  have hfinish := h.finish i
  unfold Scan.stop
  rw [h.iterators]
  cases scan.iterators[i]? with
  | none => exact h
  | some it =>
    dsimp only
    cases hfinished : it.finished with
    | true => exact h
    | false =>
      simp only [Bool.false_eq_true, if_false]
      cases it.yielded with
      | none => exact hfinish
      | some key => exact ⟨h.options, h.info, hfinish.iterators, .inr ⟨[], [], rfl, rfl, .nil, rfl⟩, fun _ => rfl⟩

theorem newIterator_alike {f scan scan' : Scan V} (h : Alike f scan scan') :
    Alike f scan.newIterator scan'.newIterator := by
  refine ⟨h.options, h.info, ?_, h.generator, h.closed⟩
  unfold Scan.newIterator
  rw [h.iterators, h.options]

/-! ## Two states -/

/-- Sorted by the key. -/
abbrev Ascending (l : List (String × V)) : Prop := l.Pairwise (·.1 < ·.1)

theorem Ascending.lookup_eq {l : List (String × V)} (h : Ascending l) {e : String × V} :
    e ∈ l ↔ lookup l e.1 = some e.2 := by
  induction l with
  | nil => exact ⟨fun h => absurd h List.not_mem_nil, fun h => by cases h⟩
  | cons a l ih =>
    obtain ⟨hlt, hl⟩ := List.pairwise_cons.mp h
    unfold lookup
    by_cases hkey : a.1 = e.1
    · rw [List.find?_cons_of_pos (by simpa using hkey)]
      constructor
      · intro hmem
        rcases List.mem_cons.mp hmem with rfl | hmem
        · rfl
        · exact absurd hkey (ne_of_lt (hlt e hmem))
      · intro heq
        have hval : a.2 = e.2 := Option.some.inj heq
        exact List.mem_cons.mpr (.inl (Prod.ext hkey.symm hval.symm))
    · rw [List.find?_cons_of_neg (by simpa using hkey)]
      refine Iff.trans ?_ (ih hl)
      exact ⟨fun hmem => (List.mem_cons.mp hmem).resolve_left fun heq => hkey (heq ▸ rfl), List.mem_cons_of_mem _⟩

theorem Ascending.filter_eq {l l' : List (String × V)} (h : Ascending l) (h' : Ascending l') (q : String → Bool)
    (heq : ∀ k, q k = true → lookup l k = lookup l' k) :
    l'.filter (fun e => q e.1) = l.filter fun e => q e.1 := by
  have hnodup : ∀ {m : List (String × V)}, Ascending m → m.Nodup := fun hm =>
    hm.imp fun hlt heq => ne_of_lt hlt (congrArg Prod.fst heq)
  refine List.Perm.eq_of_pairwise ?_ (h'.filter _) (h.filter _) ?_
  · exact fun a b _ _ hab hba => absurd hab hba.asymm
  refine (List.perm_ext_iff_of_nodup ((hnodup h').filter _) ((hnodup h).filter _)).mpr fun e => ?_
  rw [List.mem_filter, List.mem_filter]
  refine and_congr_left fun hq => ?_
  rw [h.lookup_eq, h'.lookup_eq, heq e.1 hq]

/-- The map that a scan goes over. -/
def ReadState.entries (s : ReadState V indexNames) : ScanMap → List (String × V)
  | .primary _ => s.map
  | .index indexName _ => s.indexes indexName

theorem ReadState.entries_ascending (s : ReadState V indexNames) (target : ScanMap) : Ascending (s.entries target) := by
  cases target with
  | primary start => exact s.map_sorted
  | index name start => exact s.index_sorted name

theorem ReadState.readable (s : ReadState V indexNames) (target : ScanMap) :
    ∀ e ∈ s.entries target, ∃ key, target.readKey e.1 = .ok key := by
  intro e he
  cases target with
  | primary start => exact ⟨.primary e.1, rfl⟩
  | index name start =>
    obtain ⟨secondary, primary, henc⟩ := s.index_keys name e he
    exact ⟨.index secondary primary, congrArg (Except.map _) (decodeIndexKey_encode henc)⟩

theorem getScanIterator_eq (V : Type) (indexNames : List IndexName) (options : ScanOptions) :
    (∃ e, ∀ s : ReadState V indexNames, getScanIterator s options = .error e) ∨
      ∃ fromKey, options.fromKey = .ok fromKey ∧ ∀ s : ReadState V indexNames,
        getScanIterator s options = .ok ((s.entries options.target).filter fun e => fromKey ≤ e.1) := by
  unfold getScanIterator
  cases hfrom : options.fromKey with
  | error e =>
    refine .inl ?_
    cases ho : options.target with
    | primary start =>
      unfold ScanOptions.fromKey at hfrom
      rw [ho] at hfrom
      cases hfrom
    | index name start =>
      by_cases hname : name ∈ indexNames
      · exact ⟨e, fun s => by simp only [ReadState.mapFor, if_pos hname]; rfl⟩
      · exact ⟨.unknownIndex name, fun s => by simp only [ReadState.mapFor, if_neg hname]⟩
  | ok fromKey =>
    cases ho : options.target with
    | primary start => exact .inr ⟨fromKey, rfl, fun s => rfl⟩
    | index name start =>
      by_cases hname : name ∈ indexNames
      · exact .inr ⟨fromKey, rfl, fun s => by simp only [ReadState.mapFor, if_pos hname]; rfl⟩
      · exact .inl ⟨.unknownIndex name, fun s => by simp only [ReadState.mapFor, if_neg hname]⟩

theorem openScan_tail (s : ReadState V indexNames) (options : ScanOptions) :
    ∀ l, getScanIterator s options = .ok l → Tail options l := by
  intro l hl
  rcases getScanIterator_eq V indexNames options with ⟨e, he⟩ | ⟨fromKey, hfrom, hok⟩
  · cases (he s).symm.trans hl
  · obtain rfl := Except.ok.inj ((hok s).symm.trans hl)
    refine ⟨(s.entries_ascending options.target).filter _, fun e he => ⟨fromKey, hfrom, ?_⟩, fun e he => ?_⟩
    · exact of_decide_eq_true (List.mem_filter.mp he).2
    · exact s.readable options.target e (List.mem_filter.mp he).1

theorem openScan_sound (s : ReadState V indexNames) (options : ScanOptions) : (openScan s options).Sound :=
  ⟨rfl, openScan_tail s options, fun _ _ _ h => (by cases h), fun _ _ h => (by cases h), fun h => absurd rfl h⟩

theorem noteAll_sound : (noteAll : Scan V).Sound := by
  refine ⟨rfl, fun l hl => ?_, fun _ _ _ h => (by cases h), fun _ _ h => (by cases h), fun h => absurd rfl h⟩
  obtain rfl := Except.ok.inj hl
  exact .nil

/-- Two states agree on what a scan has read when the run has ended. -/
def Agree (s s' : ReadState V indexNames) (f : Scan V) : Prop :=
  ∀ k, f.options.inScope k = true → (∀ b, f.info.bound = some b → k ≤ b) →
    lookup (s.entries f.options.target) k = lookup (s'.entries f.options.target) k

theorem openScan_alike {s s' : ReadState V indexNames} {f : Scan V} (hoptions : f.options = options)
    (h : Agree s s' f) : Alike f (openScan s options) (openScan s' options) := by
  refine ⟨rfl, rfl, rfl, ?_, fun hne => absurd rfl hne⟩
  rcases getScanIterator_eq V indexNames options with ⟨e, he⟩ | ⟨fromKey, hfrom, hok⟩
  · exact .inl ⟨e, he s, he s'⟩
  · refine .inr ⟨_, _, hok s, hok s', openScan_tail s' options _ (hok s'), ?_⟩
    rw [List.filter_filter, List.filter_filter]
    let q : String → Bool := fun k =>
      (options.inScope k && f.info.bound.all (k ≤ ·)) && decide (fromKey ≤ k)
    refine Ascending.filter_eq (s.entries_ascending options.target) (s'.entries_ascending options.target) q fun k hk => ?_
    obtain ⟨hk, -⟩ := Bool.and_eq_true_iff.mp hk
    obtain ⟨hscope, hbound⟩ := Bool.and_eq_true_iff.mp hk
    rw [← hoptions] at hscope ⊢
    refine h k hscope fun b hb => ?_
    rw [hb] at hbound
    exact of_decide_eq_true hbound

/-! ## A body -/

/-- The limits are met in order in a run. -/
def Body.LimitsInOrder (s : ReadState V indexNames) : Body V R → SubscriptionTransactionWrapper V → Prop
  | .result _, _ => True
  | .get key go, tx => (go (lookup s.map key)).LimitsInOrder s { tx with keys := key :: tx.keys }
  | .has key go, tx => (go (lookup s.map key).isSome).LimitsInOrder s { tx with keys := key :: tx.keys }
  | .isEmpty go, tx => (go s.map.isEmpty).LimitsInOrder s { tx with scans := tx.scans ++ [noteAll] }
  | .scan options go, tx => (go tx.scans.length).LimitsInOrder s { tx with scans := tx.scans ++ [openScan s options] }
  | .newIterator j go, tx =>
    let i := (tx.scans[j]?.map fun result => result.iterators.length).getD 0
    (go i).LimitsInOrder s (tx.modifyScan j Scan.newIterator)
  | .next j i go, tx =>
    match tx.scans[j]? with
    | none => (go (.ok none)).LimitsInOrder s tx
    | some opened =>
      opened.LimitInOrder i ∧
        (go (opened.next i).1).LimitsInOrder s (tx.modifyScan j fun opened => (opened.next i).2)
  | .stop j i go, tx => go.LimitsInOrder s (tx.modifyScan j fun opened => opened.stop i)

/-- What is noted at a time of a run and later. -/
structure NotedLater (tx F : SubscriptionTransactionWrapper V) : Prop where
  keys : ∀ k ∈ tx.keys, k ∈ F.keys
  scans : ∀ (j : ℕ) (scan : Scan V), tx.scans[j]? = some scan → ∃ f, F.scans[j]? = some f ∧ Later scan f

theorem NotedLater.trans {tx₁ tx₂ F : SubscriptionTransactionWrapper V} (h₁ : NotedLater tx₁ tx₂)
    (h₂ : NotedLater tx₂ F) : NotedLater tx₁ F := by
  refine ⟨fun k hk => h₂.keys k (h₁.keys k hk), fun j scan hj => ?_⟩
  obtain ⟨f₂, hf₂, hlater₂⟩ := h₁.scans j scan hj
  obtain ⟨f, hf, hlater⟩ := h₂.scans j f₂ hf₂
  exact ⟨f, hf, hlater₂.trans hlater⟩

theorem notedLater_append (tx : SubscriptionTransactionWrapper V) (scan : Scan V) :
    NotedLater tx { tx with scans := tx.scans ++ [scan] } := by
  refine ⟨fun k hk => hk, fun j scan' hj => ⟨scan', ?_, .refl scan'⟩⟩
  exact (List.getElem?_append_left (List.getElem?_eq_some_iff.mp hj).1).trans hj

theorem notedLater_modify {tx : SubscriptionTransactionWrapper V} {j : ℕ} {g : Scan V → Scan V}
    (hg : ∀ scan, tx.scans[j]? = some scan → Later scan (g scan)) : NotedLater tx (tx.modifyScan j g) := by
  refine ⟨fun k hk => hk, fun j' scan hj' => ?_⟩
  unfold SubscriptionTransactionWrapper.modifyScan
  simp only [List.getElem?_modify, hj']
  by_cases heq : j = j'
  · subst heq
    exact ⟨g scan, by simp, hg scan hj'⟩
  · exact ⟨scan, by simp [heq], .refl scan⟩

theorem sound_append {tx : SubscriptionTransactionWrapper V} {scan : Scan V} (h : ∀ scan ∈ tx.scans, scan.Sound)
    (hs : scan.Sound) : ∀ scan' ∈ tx.scans ++ [scan], scan'.Sound := by
  intro scan' hmem
  rcases List.mem_append.mp hmem with hmem | hmem
  · exact h scan' hmem
  · exact List.mem_singleton.mp hmem ▸ hs

theorem sound_modify {tx : SubscriptionTransactionWrapper V} {j : ℕ} {g : Scan V → Scan V}
    (h : ∀ scan ∈ tx.scans, scan.Sound) (hg : ∀ scan, tx.scans[j]? = some scan → scan.Sound → (g scan).Sound) :
    ∀ scan ∈ (tx.modifyScan j g).scans, scan.Sound := by
  intro scan hmem
  obtain ⟨j', hj'⟩ := List.mem_iff_getElem?.mp hmem
  unfold SubscriptionTransactionWrapper.modifyScan at hj'
  rw [List.getElem?_modify] at hj'
  obtain ⟨scan₀, hscan₀, heq⟩ := Option.map_eq_some_iff.mp hj'
  have hsound := h scan₀ (List.mem_of_getElem? hscan₀)
  by_cases hjj : j = j'
  · subst hjj
    simp only [if_true] at heq
    exact heq ▸ hg scan₀ hscan₀ hsound
  · simp only [hjj, if_false] at heq
    exact heq ▸ hsound

theorem run_later {s : ReadState V indexNames} {body : Body V R} {tx : SubscriptionTransactionWrapper V}
    (hsound : ∀ scan ∈ tx.scans, scan.Sound) (horder : body.LimitsInOrder s tx) :
    NotedLater tx (body.run s tx).2 ∧ ∀ scan ∈ (body.run s tx).2.scans, scan.Sound := by
  induction body generalizing tx with
  | result r => exact ⟨⟨fun k hk => hk, fun j scan hj => ⟨scan, hj, .refl scan⟩⟩, hsound⟩
  | get key go ih =>
    have hsound' : ∀ scan ∈ (⟨key :: tx.keys, tx.scans⟩ : SubscriptionTransactionWrapper V).scans, scan.Sound := hsound
    obtain ⟨hlater, hs⟩ := ih _ hsound' horder
    exact ⟨⟨fun k hk => hlater.keys k (List.mem_cons_of_mem _ hk), hlater.scans⟩, hs⟩
  | has key go ih =>
    have hsound' : ∀ scan ∈ (⟨key :: tx.keys, tx.scans⟩ : SubscriptionTransactionWrapper V).scans, scan.Sound := hsound
    obtain ⟨hlater, hs⟩ := ih _ hsound' horder
    exact ⟨⟨fun k hk => hlater.keys k (List.mem_cons_of_mem _ hk), hlater.scans⟩, hs⟩
  | isEmpty go ih =>
    obtain ⟨hlater, hs⟩ := ih _ (sound_append hsound noteAll_sound) horder
    exact ⟨(notedLater_append tx noteAll).trans hlater, hs⟩
  | scan options go ih =>
    obtain ⟨hlater, hs⟩ := ih _ (sound_append hsound (openScan_sound s options)) horder
    exact ⟨(notedLater_append tx _).trans hlater, hs⟩
  | newIterator j go ih =>
    obtain ⟨hlater, hs⟩ := ih _ (sound_modify hsound fun scan _ h => (newIterator_sound h).1) horder
    refine ⟨(notedLater_modify fun scan hj => ?_).trans hlater, hs⟩
    exact (newIterator_sound (hsound scan (List.mem_of_getElem? hj))).2
  | next j i go ih =>
    unfold Body.run
    unfold Body.LimitsInOrder at horder
    cases hj : tx.scans[j]? with
    | none =>
      rw [hj] at horder
      exact ih _ hsound horder
    | some opened =>
      rw [hj] at horder
      obtain ⟨hlimit, horder⟩ := horder
      have hnext := next_sound (hsound opened (List.mem_of_getElem? hj)) hlimit
      obtain ⟨hlater, hs⟩ := ih _ (sound_modify hsound fun scan hscan _ => by
        obtain rfl := Option.some.inj (hj.symm.trans hscan)
        exact hnext.1) horder
      refine ⟨(notedLater_modify fun scan hscan => ?_).trans hlater, hs⟩
      obtain rfl := Option.some.inj (hj.symm.trans hscan)
      exact hnext.2
  | stop j i go ih =>
    obtain ⟨hlater, hs⟩ := ih (sound_modify hsound fun scan _ h => (stop_sound h i).1) horder
    refine ⟨(notedLater_modify fun scan hj => ?_).trans hlater, hs⟩
    exact (stop_sound (hsound scan (List.mem_of_getElem? hj)) i).2

/-- The scans of two runs, when `F` is noted at the end of the first. -/
structure InStep (F tx tx' : SubscriptionTransactionWrapper V) : Prop where
  length : tx'.scans.length = tx.scans.length
  scans : ∀ (j : ℕ) (scan : Scan V), tx.scans[j]? = some scan →
    ∃ f scan', F.scans[j]? = some f ∧ tx'.scans[j]? = some scan' ∧ Alike f scan scan'

theorem InStep.append {F tx tx' : SubscriptionTransactionWrapper V} (h : InStep F tx tx') {scan scan' f : Scan V}
    (hf : F.scans[tx.scans.length]? = some f) (ha : Alike f scan scan') (keys keys' : List String) :
    InStep F ⟨keys, tx.scans ++ [scan]⟩ ⟨keys', tx'.scans ++ [scan']⟩ := by
  refine ⟨by simp [h.length], fun j scan₀ hj => ?_⟩
  rcases lt_trichotomy j tx.scans.length with hlt | rfl | hgt
  · rw [List.getElem?_append_left hlt] at hj
    obtain ⟨f₀, scan₀', hf₀, hj', ha₀⟩ := h.scans j scan₀ hj
    refine ⟨f₀, scan₀', hf₀, ?_, ha₀⟩
    rw [List.getElem?_append_left (by rw [h.length]; exact hlt)]
    exact hj'
  · rw [List.getElem?_concat_length] at hj
    obtain rfl := Option.some.inj hj
    refine ⟨f, scan', hf, ?_, ha⟩
    rw [← h.length, List.getElem?_concat_length]
  · rw [List.getElem?_eq_none (by simp only [List.length_append, List.length_singleton]; omega)] at hj
    cases hj

theorem InStep.modify {F tx tx' : SubscriptionTransactionWrapper V} (h : InStep F tx tx') {j : ℕ} {g g' : Scan V → Scan V}
    (hg : ∀ f scan scan', tx.scans[j]? = some scan → F.scans[j]? = some f → Alike f scan scan' →
      Alike f (g scan) (g' scan')) : InStep F (tx.modifyScan j g) (tx'.modifyScan j g') := by
  unfold SubscriptionTransactionWrapper.modifyScan
  refine ⟨by simp [h.length], fun j' scan₀ hj' => ?_⟩
  rw [List.getElem?_modify] at hj'
  obtain ⟨scan, hscan, heq⟩ := Option.map_eq_some_iff.mp hj'
  obtain ⟨f, scan', hf, hscan', ha⟩ := h.scans j' scan hscan
  by_cases hjj : j = j'
  · subst hjj
    obtain rfl : g scan = scan₀ := by simpa using heq
    exact ⟨f, g' scan', hf, by simp [hscan'], hg f scan scan' hscan hf ha⟩
  · obtain rfl : scan = scan₀ := by simpa [hjj] using heq
    exact ⟨f, scan', hf, by simp [hjj, hscan'], ha⟩

/-- `isEmpty` has read every key. -/
theorem isEmpty_eq {s s' : ReadState V indexNames} {f : Scan V} (hlater : Later noteAll f) (h : Agree s s' f) :
    s'.map.isEmpty = s.map.isEmpty := by
  have hbound : f.info.bound = none := by
    unfold ScanSubscriptionInfo.bound
    rw [hlater.noted]
    rfl
  have hlookup : ∀ k, lookup s.map k = lookup s'.map k := by
    intro k
    have hk := h k
    rw [hlater.options] at hk
    refine hk ?_ fun b hb => ?_
    · have hle : decide ("" ≤ k) = true := decide_eq_true (String.le_iff_toList_le.mpr (PrefixOrder.nil_le _))
      change (decide ("" ≤ k) && true && true) = true
      rw [hle]
      rfl
    · rw [hbound] at hb
      cases hb
  have heq := Ascending.filter_eq s.map_sorted s'.map_sorted (fun _ => true) fun k _ => hlookup k
  rw [List.filter_true, List.filter_true] at heq
  rw [heq]

/-- **A body has the same result on a state that agrees with all it has noted.** -/
theorem run_alike {s s' : ReadState V indexNames} {body : Body V R} {tx tx' : SubscriptionTransactionWrapper V}
    (hsound : ∀ scan ∈ tx.scans, scan.Sound) (horder : body.LimitsInOrder s tx)
    (hstep : InStep (body.run s tx).2 tx tx')
    (hkeys : ∀ k ∈ (body.run s tx).2.keys, lookup s.map k = lookup s'.map k)
    (hagree : ∀ f ∈ (body.run s tx).2.scans, Agree s s' f) : (body.run s' tx').1 = (body.run s tx).1 := by
  induction body generalizing tx tx' with
  | result r => rfl
  | get key go ih =>
    have hsound' : ∀ scan ∈ (⟨key :: tx.keys, tx.scans⟩ : SubscriptionTransactionWrapper V).scans, scan.Sound := hsound
    have hkey := hkeys key ((run_later hsound' horder).1.keys key (List.mem_cons_self ..))
    unfold Body.run
    rw [← hkey]
    exact ih _ hsound' horder ⟨hstep.length, hstep.scans⟩ hkeys hagree
  | has key go ih =>
    have hsound' : ∀ scan ∈ (⟨key :: tx.keys, tx.scans⟩ : SubscriptionTransactionWrapper V).scans, scan.Sound := hsound
    have hkey := hkeys key ((run_later hsound' horder).1.keys key (List.mem_cons_self ..))
    unfold Body.run
    rw [← hkey]
    exact ih _ hsound' horder ⟨hstep.length, hstep.scans⟩ hkeys hagree
  | isEmpty go ih =>
    have hsound' : ∀ scan ∈ tx.scans ++ [noteAll], scan.Sound :=
      sound_append hsound noteAll_sound
    have horder' : (go s.map.isEmpty).LimitsInOrder s ⟨tx.keys, tx.scans ++ [noteAll]⟩ := horder
    obtain ⟨f, hf, hlater⟩ := (run_later hsound' horder').1.scans tx.scans.length noteAll List.getElem?_concat_length
    unfold Body.run
    rw [isEmpty_eq hlater (hagree f (List.mem_of_getElem? hf))]
    refine ih _ hsound' horder (hstep.append hf ⟨rfl, rfl, rfl, ?_, fun _ => rfl⟩ _ _) hkeys hagree
    exact .inr ⟨[], [], rfl, rfl, .nil, rfl⟩
  | scan options go ih =>
    have hsound' : ∀ scan ∈ tx.scans ++ [openScan s options], scan.Sound :=
      sound_append hsound (openScan_sound s options)
    have horder' : (go tx.scans.length).LimitsInOrder s ⟨tx.keys, tx.scans ++ [openScan s options]⟩ := horder
    obtain ⟨f, hf, hlater⟩ := (run_later hsound' horder').1.scans tx.scans.length (openScan s options) List.getElem?_concat_length
    unfold Body.run
    rw [hstep.length]
    refine ih _ hsound' horder (hstep.append hf ?_ _ _) hkeys hagree
    exact openScan_alike hlater.options (hagree f (List.mem_of_getElem? hf))
  | newIterator j go ih =>
    have hsound' := sound_modify (j := j) hsound fun scan _ h => (newIterator_sound h).1
    have hnumber : (tx'.scans[j]?.map fun result => result.iterators.length) =
        tx.scans[j]?.map fun result => result.iterators.length := by
      cases hj : tx.scans[j]? with
      | none =>
        have hle := List.getElem?_eq_none_iff.mp hj
        rw [List.getElem?_eq_none (by rw [hstep.length]; exact hle)]
      | some scan =>
        obtain ⟨f, scan', -, hscan', ha⟩ := hstep.scans j scan hj
        rw [hscan', Option.map_some, Option.map_some, ha.iterators]
    unfold Body.run
    rw [hnumber]
    exact ih _ hsound' horder (hstep.modify fun f scan scan' _ _ ha => newIterator_alike ha) hkeys hagree
  | next j i go ih =>
    unfold Body.run at hstep hkeys hagree ⊢
    unfold Body.LimitsInOrder at horder
    cases hj : tx.scans[j]? with
    | none =>
      rw [hj] at hstep hkeys hagree horder
      have hle := List.getElem?_eq_none_iff.mp hj
      rw [List.getElem?_eq_none (by rw [hstep.length]; exact hle)]
      exact ih _ hsound horder hstep hkeys hagree
    | some opened =>
      rw [hj] at hstep hkeys hagree horder
      obtain ⟨hlimit, horder⟩ := horder
      have hopened := hsound opened (List.mem_of_getElem? hj)
      have hnext := next_sound hopened hlimit
      have hsound' := sound_modify (j := j) (g := fun opened => (opened.next i).2) hsound fun scan hscan _ => by
        obtain rfl := Option.some.inj (hj.symm.trans hscan)
        exact hnext.1
      obtain ⟨f, opened', hf, hopened', ha⟩ := hstep.scans j opened hj
      -- What the scan is after this step it is later on.
      have hlater : Later (opened.next i).2 f := by
        have hmodified : (tx.modifyScan j fun opened => (opened.next i).2).scans[j]? = some (opened.next i).2 := by
          unfold SubscriptionTransactionWrapper.modifyScan
          simp [hj]
        obtain ⟨f', hf', hlater⟩ := (run_later hsound' horder).1.scans j _ hmodified
        obtain rfl := Option.some.inj (hf.symm.trans hf')
        exact hlater
      have hsame := next_alike ha hopened hlater
      rw [hopened']
      simp only
      rw [hsame.1]
      refine ih _ hsound' horder (hstep.modify fun f₀ scan scan' hscan hf₀ ha₀ => ?_) hkeys hagree
      obtain rfl := Option.some.inj (hj.symm.trans hscan)
      obtain rfl := Option.some.inj (hf.symm.trans hf₀)
      exact (next_alike ha₀ hopened hlater).2
  | stop j i go ih =>
    have hsound' := sound_modify (j := j) hsound fun scan _ h => (stop_sound h i).1
    exact ih hsound' horder (hstep.modify fun f scan scan' _ _ ha => stop_alike ha i) hkeys hagree

end ZeroSync.Subscriptions
