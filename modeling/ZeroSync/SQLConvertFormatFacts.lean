/-
When the reuse of placeholders cannot be seen (`formatArgs_transparent_iff`): what is
bound to a placeholder is the text of the first occurrence of its value and type
(`Numbered`), so all of these have to agree on whether it is sent raw.
-/
import ZeroSync.SQLConvertFormat

namespace ZeroSync.SQLConvert

variable {objects : Objects}

/-! ## The text of a value -/

/-- The JSON of a value is not the value, but for `undefined`. -/
theorem jsonStringify_ne {value : Value} (h : value ≠ .undefined) : jsonStringify objects value ≠ value := by
  cases value with
  | undefined => exact absurd rfl h
  | string s => exact fun heq => JSONText.quote_ne s (Value.string.inj heq)
  | null => exact Value.noConfusion
  | boolean b => exact Value.noConfusion
  | number text => exact Value.noConfusion
  | object ref => exact Value.noConfusion

theorem stringifyArg_eq (arg : SqlConvertArg) :
    stringifyArg objects arg = if arg.value = .null then .null
      else if arg.raw then arg.value else jsonStringify objects arg.value := by
  unfold stringifyArg
  by_cases hnull : arg.value = .null
  · rw [if_pos hnull, if_pos hnull]
  rw [if_neg hnull, if_neg hnull]
  cases arg with
  | column type value plural isEnum isComparison =>
    cases plural <;> simp [SqlConvertArg.plural, SqlConvertArg.raw, SqlConvertArg.value]
  | literal type value plural =>
    cases plural <;> cases type <;> simp [SqlConvertArg.plural, SqlConvertArg.raw, SqlConvertArg.value]

theorem stringifyArg_eq_iff {a b : SqlConvertArg} (hvalue : a.value = b.value) :
    stringifyArg objects a = stringifyArg objects b ↔ (a.value ≠ .null → a.value ≠ .undefined → a.raw = b.raw) := by
  rw [stringifyArg_eq, stringifyArg_eq, ← hvalue]
  by_cases hnull : a.value = .null
  · simp [hnull]
  by_cases hundefined : a.value = .undefined
  · simp [hundefined, jsonStringify]
  rw [if_neg hnull, if_neg hnull]
  have hne := @jsonStringify_ne objects a.value hundefined
  cases a.raw <;> cases b.raw <;> simp [hnull, hundefined, hne, hne.symm]

/-! ## Placeholders -/

/-- An argument that `createPlaceholder` does not throw for. -/
def SqlConvertArg.Placed (arg : SqlConvertArg) : Prop := arg.type = "null" → arg.value = .null ∧ arg.plural = false

theorem createPlaceholder_isSome_iff (index : ℕ) (arg : SqlConvertArg) :
    (∃ text, createPlaceholder objects index arg = some text) ↔ arg.Placed := by
  unfold createPlaceholder SqlConvertArg.Placed
  by_cases htype : arg.type = "null"
  · by_cases hnull : arg.value = .null ∧ arg.plural = false
    · rw [if_pos htype, if_pos hnull]
      exact iff_of_true ⟨_, rfl⟩ fun _ => hnull
    · rw [if_pos htype, if_neg hnull]
      exact iff_of_false (fun ⟨_, h⟩ => by cases h) fun h => hnull (h htype)
  · rw [if_neg htype]
    refine iff_of_true ?_ fun h => absurd h htype
    by_cases hnull : arg.value = .null ∧ arg.plural = true
    · exact ⟨_, if_pos hnull⟩
    · rw [if_neg hnull]
      cases arg with
      | column => exact ⟨_, rfl⟩
      | literal type value plural =>
        dsimp only
        split <;> exact ⟨_, rfl⟩

/-! ## The loop -/

/-- What `formatFn` has after the arguments `done`. -/
structure Numbered (objects : Objects) (done : List SqlConvertArg) (formatted : Formatted) : Prop where
  size : formatted.format.size = formatted.values.length
  length : formatted.placeholders.length = done.length
  /-- Each occurrence has the number of its value and type. -/
  own : ∀ (i : ℕ) (arg : SqlConvertArg), done[i]? = some arg → ∃ n text, formatted.format.seen arg.value arg.type = some n ∧
    createPlaceholder objects n arg = some text ∧ formatted.placeholders[i]? = some (⟨n, text⟩ : Placeholder)
  /-- What is bound is the text of some occurrence. -/
  bound : ∀ (value : Value) (type : String) (n : ℕ), formatted.format.seen value type = some n → 1 ≤ n ∧
    ∃ first ∈ done, first.value = value ∧ first.type = type ∧ formatted.values[n - 1]? = some (stringifyArg objects first)
  numbers : ∀ n : ℕ, 1 ≤ n → n ≤ formatted.values.length → ∃ placeholder ∈ formatted.placeholders, placeholder.index = n

theorem numbered_nil : Numbered objects [] {} where
  size := rfl
  length := rfl
  own i arg h := by simp at h
  bound value type n h := by cases h
  numbers n hlow hhigh := by simp at hhigh; omega

theorem formatItem_cases {formatted next : Formatted} {arg : SqlConvertArg}
    (h : formatItem objects formatted arg = some next) :
    (∃ n text, formatted.format.seen arg.value arg.type = some n ∧ createPlaceholder objects n arg = some text ∧
      next = ⟨formatted.format, formatted.placeholders ++ [⟨n, text⟩], formatted.values⟩) ∨
    (formatted.format.seen arg.value arg.type = none ∧ ∃ text,
      createPlaceholder objects (formatted.format.size + 1) arg = some text ∧
      next = ⟨formatted.format.see arg.value arg.type, formatted.placeholders ++ [⟨formatted.format.size + 1, text⟩],
        formatted.values ++ [stringifyArg objects arg]⟩) := by
  unfold formatItem formatValue at h
  cases hseen : formatted.format.seen arg.value arg.type with
  | some n =>
    rw [hseen] at h
    cases htext : createPlaceholder objects n arg with
    | none => simp [htext] at h
    | some text =>
      simp only [htext, Option.pure_def, Option.bind_eq_bind, Option.bind_some, Option.some.injEq, Option.toList_none,
        List.append_nil] at h
      exact .inl ⟨n, text, rfl, htext, h.symm⟩
  | none =>
    rw [hseen] at h
    cases htext : createPlaceholder objects (formatted.format.size + 1) arg with
    | none => simp [htext] at h
    | some text =>
      simp only [SQLConvertFormat.size_see, htext, Option.pure_def, Option.bind_eq_bind, Option.bind_some, Option.some.injEq,
        Option.toList_some] at h
      exact .inr ⟨rfl, text, rfl, h.symm⟩

theorem Numbered.step {done : List SqlConvertArg} {formatted next : Formatted} (h : Numbered objects done formatted)
    {arg : SqlConvertArg} (hitem : formatItem objects formatted arg = some next) :
    Numbered objects (done ++ [arg]) next := by
  have hlast : ∀ i a, (done ++ [arg])[i]? = some a → i < done.length ∧ done[i]? = some a ∨ i = done.length ∧ a = arg := by
    intro i a hi
    by_cases hlt : i < done.length
    · exact .inl ⟨hlt, by rwa [List.getElem?_append_left hlt] at hi⟩
    · rw [List.getElem?_append_right (by omega), List.getElem?_singleton] at hi
      split at hi
      · exact .inr ⟨by omega, (Option.some.inj hi).symm⟩
      · cases hi
  obtain ⟨n, text, hseen, htext, rfl⟩ | ⟨hseen, text, htext, rfl⟩ := formatItem_cases hitem
  · constructor
    · exact h.size
    · simp [h.length]
    · intro i a hi
      obtain ⟨hlt, hi⟩ | ⟨rfl, rfl⟩ := hlast i a hi
      · obtain ⟨m, text', hm, htext', hplaceholder⟩ := h.own i a hi
        exact ⟨m, text', hm, htext', by rwa [List.getElem?_append_left (by rw [h.length]; exact hlt)]⟩
      · exact ⟨n, text, hseen, htext, by rw [← h.length]; exact List.getElem?_concat_length⟩
    · intro value type m hm
      obtain ⟨hpos, first, hfirst, hvalue, htype, hbound⟩ := h.bound value type m hm
      exact ⟨hpos, first, List.mem_append_left _ hfirst, hvalue, htype, hbound⟩
    · intro m hlow hhigh
      obtain ⟨placeholder, hmem, hindex⟩ := h.numbers m hlow hhigh
      exact ⟨placeholder, List.mem_append_left _ hmem, hindex⟩
  · constructor
    · simp [h.size]
    · simp [h.length]
    · intro i a hi
      obtain ⟨hlt, hi⟩ | ⟨rfl, rfl⟩ := hlast i a hi
      · obtain ⟨m, text', hm, htext', hplaceholder⟩ := h.own i a hi
        refine ⟨m, text', ?_, htext', by rwa [List.getElem?_append_left (by rw [h.length]; exact hlt)]⟩
        rw [SQLConvertFormat.seen_see, if_neg ?_, hm]
        rintro ⟨hvalue, htype⟩
        rw [hvalue, htype, hseen] at hm
        cases hm
      · refine ⟨_, text, ?_, htext, by rw [← h.length]; exact List.getElem?_concat_length⟩
        rw [SQLConvertFormat.seen_see, if_pos ⟨rfl, rfl⟩]
    · intro value type m hm
      rw [SQLConvertFormat.seen_see] at hm
      split at hm
      · rename_i hkey
        obtain ⟨rfl, rfl⟩ := hkey
        obtain rfl := Option.some.inj hm
        refine ⟨by omega, arg, by simp, rfl, rfl, ?_⟩
        rw [Nat.add_sub_cancel, h.size]
        exact List.getElem?_concat_length
      · obtain ⟨hpos, first, hfirst, hvalue, htype, hbound⟩ := h.bound value type m hm
        have hlt : m - 1 < formatted.values.length := (List.getElem?_eq_some_iff.1 hbound).1
        exact ⟨hpos, first, List.mem_append_left _ hfirst, hvalue, htype, by rwa [List.getElem?_append_left hlt]⟩
    · intro m hlow hhigh
      rw [List.length_append, List.length_singleton] at hhigh
      by_cases hlt : m ≤ formatted.values.length
      · obtain ⟨placeholder, hmem, hindex⟩ := h.numbers m hlow hlt
        exact ⟨placeholder, List.mem_append_left _ hmem, hindex⟩
      · exact ⟨_, List.mem_append_right _ List.mem_cons_self, by dsimp only; rw [h.size]; omega⟩

theorem Numbered.run {done args : List SqlConvertArg} {formatted next : Formatted} (h : Numbered objects done formatted)
    (hrun : args.foldlM (formatItem objects) formatted = some next) : Numbered objects (done ++ args) next := by
  induction args generalizing done formatted with
  | nil =>
    cases hrun
    rwa [List.append_nil]
  | cons arg args ih =>
    rw [List.foldlM_cons] at hrun
    obtain ⟨middle, hitem, hrest⟩ := Option.bind_eq_some_iff.1 hrun
    have hall := ih (h.step hitem) hrest
    rwa [List.append_assoc] at hall

/-- `formatFn` throws only for an argument without a placeholder. -/
theorem formatItem_isSome {formatted : Formatted} {arg : SqlConvertArg} (h : arg.Placed) :
    ∃ next, formatItem objects formatted arg = some next := by
  unfold formatItem formatValue
  cases formatted.format.seen arg.value arg.type with
  | some n =>
    obtain ⟨text, htext⟩ := (@createPlaceholder_isSome_iff objects n arg).2 h
    exact ⟨_, by simp [htext]; rfl⟩
  | none =>
    obtain ⟨text, htext⟩ := (@createPlaceholder_isSome_iff objects (formatted.format.size + 1) arg).2 h
    exact ⟨_, by simp [htext]; rfl⟩

theorem foldlM_isSome {args : List SqlConvertArg} (h : ∀ arg ∈ args, arg.Placed) (formatted : Formatted) :
    ∃ next, args.foldlM (formatItem objects) formatted = some next := by
  induction args generalizing formatted with
  | nil => exact ⟨formatted, rfl⟩
  | cons arg args ih =>
    obtain ⟨middle, hitem⟩ := @formatItem_isSome objects formatted arg (h arg List.mem_cons_self)
    obtain ⟨next, hrest⟩ := ih (fun arg hmem => h arg (List.mem_cons_of_mem _ hmem)) middle
    exact ⟨next, by rw [List.foldlM_cons, hitem]; exact hrest⟩

/-! ## A statement -/

/-- Every occurrence has a placeholder for a value that is its own text, the numbers are
those of the values, and occurrences share one only if they have one text. -/
structure Transparent (objects : Objects) (args : List SqlConvertArg) (formatted : Formatted) : Prop where
  length : formatted.placeholders.length = args.length
  bound : ∀ (i : ℕ) (arg : SqlConvertArg) (placeholder : Placeholder), args[i]? = some arg → formatted.placeholders[i]? = some placeholder →
    createPlaceholder objects placeholder.index arg = some placeholder.text ∧ 1 ≤ placeholder.index ∧
      formatted.values[placeholder.index - 1]? = some (stringifyArg objects arg)
  numbers : ∀ n : ℕ, 1 ≤ n → n ≤ formatted.values.length → ∃ placeholder ∈ formatted.placeholders, placeholder.index = n
  shared : ∀ (i j : ℕ) (a b : SqlConvertArg) (p q : Placeholder), args[i]? = some a → args[j]? = some b → formatted.placeholders[i]? = some p →
    formatted.placeholders[j]? = some q → p.index = q.index → stringifyArg objects a = stringifyArg objects b

/-- Nothing of type `null` but null, and a value that comes with a type twice is sent raw
both times, or neither time. -/
structure Agreeing (args : List SqlConvertArg) : Prop where
  placed : ∀ arg ∈ args, arg.Placed
  raws : ∀ a ∈ args, ∀ b ∈ args, a.value = b.value → a.type = b.type → a.value ≠ .null → a.value ≠ .undefined → a.raw = b.raw

theorem Transparent.agreeing {args : List SqlConvertArg} {formatted : Formatted}
    (hrun : formatArgs objects args = some formatted) (htransparent : Transparent objects args formatted) :
    Agreeing args := by
  have hnumbered := (@numbered_nil objects).run hrun
  rw [List.nil_append] at hnumbered
  constructor
  · intro arg hmem
    obtain ⟨i, hi⟩ := List.mem_iff_getElem?.1 hmem
    obtain ⟨n, text, -, htext, -⟩ := hnumbered.own i arg hi
    exact (createPlaceholder_isSome_iff n arg).1 ⟨text, htext⟩
  · intro a ha b hb hvalue htype
    obtain ⟨i, hi⟩ := List.mem_iff_getElem?.1 ha
    obtain ⟨j, hj⟩ := List.mem_iff_getElem?.1 hb
    obtain ⟨n, text, hn, -, hp⟩ := hnumbered.own i a hi
    obtain ⟨m, text', hm, -, hq⟩ := hnumbered.own j b hj
    rw [← hvalue, ← htype, hn] at hm
    exact (stringifyArg_eq_iff hvalue).1 (htransparent.shared i j a b _ _ hi hj hp hq (Option.some.inj hm))

/-- **The reuse of placeholders cannot be seen** just if the arguments agree. -/
theorem formatArgs_transparent_iff (objects : Objects) (args : List SqlConvertArg) :
    (∃ formatted, formatArgs objects args = some formatted ∧ Transparent objects args formatted) ↔ Agreeing args := by
  constructor
  · rintro ⟨formatted, hrun, htransparent⟩
    exact htransparent.agreeing hrun
  · intro hagree
    obtain ⟨formatted, hrun⟩ := @foldlM_isSome objects args hagree.placed {}
    have hnumbered := (@numbered_nil objects).run hrun
    rw [List.nil_append] at hnumbered
    have hbound : ∀ (i : ℕ) (arg : SqlConvertArg) (placeholder : Placeholder), args[i]? = some arg → formatted.placeholders[i]? = some placeholder →
        createPlaceholder objects placeholder.index arg = some placeholder.text ∧ 1 ≤ placeholder.index ∧
          formatted.values[placeholder.index - 1]? = some (stringifyArg objects arg) := by
      intro i arg placeholder hi hplaceholder
      obtain ⟨n, text, hn, htext, hown⟩ := hnumbered.own i arg hi
      obtain rfl : placeholder = ⟨n, text⟩ := Option.some.inj (hplaceholder.symm.trans hown)
      obtain ⟨hpos, first, hfirst, hvalue, htype, hfirsts⟩ := hnumbered.bound _ _ n hn
      have heq := (@stringifyArg_eq_iff objects first arg hvalue).2
        (hagree.raws first hfirst arg (List.mem_of_getElem? hi) hvalue htype)
      exact ⟨htext, hpos, heq ▸ hfirsts⟩
    refine ⟨formatted, hrun, hnumbered.length, hbound, hnumbered.numbers, ?_⟩
    intro i j a b p q hi hj hp hq hindex
    obtain ⟨-, -, ha⟩ := hbound i a p hi hp
    obtain ⟨-, -, hb⟩ := hbound j b q hj hq
    rw [hindex] at ha
    exact Option.some.inj (ha.symm.trans hb)

/-- The literal `'abc'` and a column value `'abc'` of a type named `string` that is no enum:
the second is bound to the first one's text, not to its JSON. -/
theorem formatArgs_shares_text :
    ¬∀ (objects : Objects) (args : List SqlConvertArg),
      (∀ type v p e c, .column type v p e c ∈ args → ∀ v' p' e' c', .column type v' p' e' c' ∈ args → e = e') →
      (∀ arg ∈ args, arg.plural = true → arg.value = .null ∨ isArray objects arg.value = true) →
        ∃ formatted, formatArgs objects args = some formatted ∧ Transparent objects args formatted := by
  intro hall
  obtain ⟨formatted, hrun, htransparent⟩ := hall (fun _ => .null)
    [.literal .string (.string "abc".toList) false, .column "string" (.string "abc".toList) false false false]
    (by simp) (by simp [SqlConvertArg.plural])
  have hraw := (htransparent.agreeing hrun).raws (.literal .string (.string "abc".toList) false) (by simp)
    (.column "string" (.string "abc".toList) false false false) (by simp) rfl rfl (by simp [SqlConvertArg.value])
    (by simp [SqlConvertArg.value])
  revert hraw
  decide

end ZeroSync.SQLConvert
