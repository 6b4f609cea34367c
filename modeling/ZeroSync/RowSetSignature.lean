/-
`#trackRowSetSignatures` of `view-syncer/pipeline-driver.ts` and `row-set-signature.ts`:
for each query, a signature of the rows attached to it.

The signature is documented to be that "of the set of rows currently attached". It is
toggled by every row that is added or removed, so it is that of the rows which were added
an odd number of times more than removed. The two agree exactly if the rows attached an
even number of times have no signature of their own (`rowSetSignature_iff`); a row that
two parents reach has one.

`stringify` and `xxHash32` are functions of libraries.
-/
import ZeroSync.Data
import ZeroSync.StateVersion
import ZeroSync.ToggledSet

namespace ZeroSync.PipelineDriver

open ToggledSet

/-- `RowKey`: columns with their values. -/
abbrev RowKey := List (String × Value)

/-- `RowID`. -/
structure RowID where
  schema : String
  table : String
  rowKey : RowKey
  deriving DecidableEq

/-- The types of a `RowChange`. -/
inductive RowChangeType
  | add
  | remove
  | edit
  deriving DecidableEq

/-- `RowChange`, its row left out. -/
structure RowChange where
  type : RowChangeType
  queryID : String
  table : String
  rowKey : RowKey

/-- No column is smaller than the one before it. -/
def keysInOrder : RowKey → Bool
  | [] | [_] => true
  | a :: b :: rest => !stringLt b.1 a.1 && keysInOrder (b :: rest)

/-- `normalizedKeyOrder`. -/
def normalizedKeyOrder (rowKey : RowKey) : RowKey :=
  if keysInOrder rowKey then rowKey else rowKey.insertionSort fun a b => codeUnits a.1 ≤ codeUnits b.1

/-- `tuples`. -/
def tuples (key : RowKey) : List Value :=
  (normalizedKeyOrder key).flatMap fun e => [.str e.1, e.2]

section
variable (stringify : List Value → String) (xxHash32 : String → ℕ → UInt32)

/-- `hash`. -/
def hash (str : String) (words : ℕ) : ℕ :=
  (List.range words).foldl (fun hash i => (hash <<< 32) + (xxHash32 str i).toNat) 0

def h64 (s : String) : ℕ := hash xxHash32 s 2

def rowIDString (id : RowID) : String :=
  stringify ([.str id.schema, .str id.table] ++ tuples id.rowKey)

def rowIDSignatureUnit (id : RowID) : ℕ := h64 xxHash32 (rowIDString stringify id)

/-! ## The driver -/

/-- `#rowSetSignatures`. -/
abbrev RowSetSignatures := OrderedMap String ℕ

/-- `#trackRowSetSignatures` at one change. -/
def trackRowSetSignature (signatures : RowSetSignatures) (change : RowChange) : RowSetSignatures :=
  if change.type ≠ .edit then
    let cur := (signatures.get? change.queryID).getD 0
    let unit := rowIDSignatureUnit stringify xxHash32 { schema := "", table := change.table, rowKey := change.rowKey }
    signatures.set change.queryID (cur ^^^ unit)
  else
    signatures

/-- What the driver is called with, and the changes that are taken from what it returns. -/
inductive DriverEvent
  | addQuery (queryID : String) (changes : List RowChange)
  | advance (changes : List RowChange)
  | removeQuery (queryID : String)
  | reset

/-- What a call does to the signatures. `addQuery` removes the query first. -/
def DriverEvent.apply (signatures : RowSetSignatures) : DriverEvent → RowSetSignatures
  | addQuery queryID changes => changes.foldl (trackRowSetSignature stringify xxHash32) (signatures.erase queryID)
  | advance changes => changes.foldl (trackRowSetSignature stringify xxHash32) signatures
  | removeQuery queryID => signatures.erase queryID
  | reset => ∅

/-- The signatures after some calls. -/
def rowSetSignatures (events : List DriverEvent) : RowSetSignatures :=
  events.foldl (DriverEvent.apply stringify xxHash32) ∅

end

/-! ## The rows that are attached -/

/-- The row a change is about: its key in normal order. -/
def RowChange.row (change : RowChange) : RowID where
  schema := ""
  table := change.table
  rowKey := normalizedKeyOrder change.rowKey

section
variable (queryID : String)

/-- The changes of a query since it was last added. -/
def DriverEvent.since (changes : List RowChange) : DriverEvent → List RowChange
  | addQuery id new => (if id = queryID then [] else changes) ++ new.filter (·.queryID = queryID)
  | advance new => changes ++ new.filter (·.queryID = queryID)
  | removeQuery id => if id = queryID then [] else changes
  | reset => []

def changesOf (events : List DriverEvent) : List RowChange := events.foldl (DriverEvent.since queryID) []

end

/-- How often a row was added, less how often it was removed. -/
def runningCount (changes : List RowChange) (row : RowID) : ℤ :=
  changes.countP (fun c => c.type = .add ∧ c.row = row) - changes.countP (fun c => c.type = .remove ∧ c.row = row)

/-- The rows whose running count is positive. -/
def attachedRows (changes : List RowChange) : Finset RowID :=
  (changes.map RowChange.row).toFinset.filter fun row => 0 < runningCount changes row

/-- The XOR of the units of some rows. -/
def xorUnits (stringify : List Value → String) (xxHash32 : String → ℕ → UInt32) (rows : Finset RowID) : ℕ :=
  setHash (· ^^^ ·) 0 (rowIDSignatureUnit stringify xxHash32) rows

/-! ## Rows -/

theorem keysInOrder_of_pairwise {rowKey : RowKey} (h : rowKey.Pairwise fun a b => codeUnits a.1 ≤ codeUnits b.1) :
    keysInOrder rowKey = true := by
  induction rowKey using keysInOrder.induct with
  | case1 => rfl
  | case2 a => rfl
  | case3 a b rest ih =>
    obtain ⟨ha, hrest⟩ := List.pairwise_cons.mp h
    have hab : stringLt b.1 a.1 = false := by simpa [stringLt] using ha b List.mem_cons_self
    simp [keysInOrder, hab, ih hrest]

theorem normalizedKeyOrder_idem (rowKey : RowKey) :
    normalizedKeyOrder (normalizedKeyOrder rowKey) = normalizedKeyOrder rowKey := by
  have hordered : keysInOrder (normalizedKeyOrder rowKey) = true := by
    unfold normalizedKeyOrder
    split
    · assumption
    · have : Std.Total fun a b : String × Value => codeUnits a.1 ≤ codeUnits b.1 := ⟨fun a b => le_total _ _⟩
      have : IsTrans (String × Value) fun a b => codeUnits a.1 ≤ codeUnits b.1 := ⟨fun _ _ _ => le_trans⟩
      exact keysInOrder_of_pairwise (List.pairwise_insertionSort _ rowKey)
  rw [normalizedKeyOrder, if_pos hordered]

section
variable (stringify : List Value → String) (xxHash32 : String → ℕ → UInt32)

theorem rowIDSignatureUnit_row (change : RowChange) :
    rowIDSignatureUnit stringify xxHash32 { schema := "", table := change.table, rowKey := change.rowKey } =
      rowIDSignatureUnit stringify xxHash32 change.row := by
  simp [rowIDSignatureUnit, rowIDString, tuples, RowChange.row, normalizedKeyOrder_idem]

/-! ## What is toggled -/

/-- The rows toggled by some changes. -/
def toggledRows (changes : List RowChange) : List RowID :=
  (changes.filter fun c => c.type ≠ .edit).map RowChange.row

theorem count_toggledRows (changes : List RowChange) (row : RowID) :
    (toggledRows changes).count row = changes.countP (fun c => c.type = .add ∧ c.row = row) +
      changes.countP (fun c => c.type = .remove ∧ c.row = row) := by
  induction changes with
  | nil => rfl
  | cons c changes ih =>
    have hcons : toggledRows (c :: changes) = (if c.type = .edit then [] else [c.row]) ++ toggledRows changes := by
      by_cases hedit : c.type = .edit <;> simp [toggledRows, hedit]
    rw [hcons, List.count_append, ih, List.countP_cons, List.countP_cons]
    cases htype : c.type <;> by_cases hrow : c.row = row <;> simp [hrow] <;> omega

theorem odd_count_toggledRows (changes : List RowChange) (row : RowID) :
    Odd ((toggledRows changes).count row) ↔ Odd (runningCount changes row) := by
  rw [count_toggledRows, Nat.odd_iff, runningCount, Int.odd_iff]
  omega

theorem toggledRows_append (changes new : List RowChange) :
    toggledRows (changes ++ new) = toggledRows changes ++ toggledRows new := by
  simp [toggledRows]

/-- The signature of a query is that of the rows toggled by its changes. -/
def Tracks (signatures : RowSetSignatures) (changes : List RowChange) (queryID : String) : Prop :=
  (signatures.get? queryID).getD 0 = xorUnits stringify xxHash32 (toggled (toggledRows changes))

variable {stringify xxHash32} {queryID : String} {signatures : RowSetSignatures} {changes : List RowChange}

theorem Tracks.track (h : Tracks stringify xxHash32 signatures changes queryID) (change : RowChange) :
    Tracks stringify xxHash32 (trackRowSetSignature stringify xxHash32 signatures change)
      (changes ++ [change].filter (·.queryID = queryID)) queryID := by
  unfold Tracks at h ⊢
  by_cases hedit : change.type = .edit
  · have hnone : toggledRows ([change].filter (·.queryID = queryID)) = [] := by
      simp [toggledRows, List.filter_filter, hedit]
    rw [toggledRows_append, hnone, List.append_nil, ← h]
    simp [trackRowSetSignature, hedit]
  · by_cases hid : change.queryID = queryID
    · have hrow : toggledRows ([change].filter (·.queryID = queryID)) = [change.row] := by
        simp [toggledRows, hid, hedit]
      rw [toggledRows_append, hrow, toggled_concat, xorUnits, setHash_toggle _ selfInverse_xor]
      simp only [trackRowSetSignature, hedit, ne_eq, not_false_eq_true, if_true, hid, OrderedMap.get?_set_self,
        Option.getD_some, h, rowIDSignatureUnit_row]
      rfl
    · have hnone : toggledRows ([change].filter (·.queryID = queryID)) = [] := by simp [toggledRows, hid]
      rw [toggledRows_append, hnone, List.append_nil, ← h]
      simp [trackRowSetSignature, hedit, OrderedMap.get?_set_of_ne _ _ hid]

theorem Tracks.trackAll (h : Tracks stringify xxHash32 signatures changes queryID) (new : List RowChange) :
    Tracks stringify xxHash32 (new.foldl (trackRowSetSignature stringify xxHash32) signatures)
      (changes ++ new.filter (·.queryID = queryID)) queryID := by
  induction new generalizing signatures changes with
  | nil => simpa using h
  | cons change new ih =>
    have hnext := ih (h.track change)
    rw [List.append_assoc, ← List.filter_append] at hnext
    exact hnext

theorem Tracks.none (h : signatures.get? queryID = none) : Tracks stringify xxHash32 signatures [] queryID := by
  rw [Tracks, h]
  rfl

theorem Tracks.erase (h : Tracks stringify xxHash32 signatures changes queryID) (id : String) :
    Tracks stringify xxHash32 (signatures.erase id) (if id = queryID then [] else changes) queryID := by
  split
  · rename_i heq
    exact .none (by simp [OrderedMap.get?_erase, heq])
  · rename_i hne
    simpa [Tracks, OrderedMap.get?_erase, hne] using h

/-- **Step.** -/
theorem Tracks.apply (h : Tracks stringify xxHash32 signatures changes queryID) (event : DriverEvent) :
    Tracks stringify xxHash32 (event.apply stringify xxHash32 signatures) (event.since queryID changes) queryID := by
  cases event with
  | addQuery id new => exact (h.erase id).trackAll new
  | advance new => exact h.trackAll new
  | removeQuery id => exact h.erase id
  | reset => exact .none rfl

/-- **Run.** -/
theorem Tracks.run (h : Tracks stringify xxHash32 signatures changes queryID) (events : List DriverEvent) :
    Tracks stringify xxHash32 (events.foldl (DriverEvent.apply stringify xxHash32) signatures)
      (events.foldl (DriverEvent.since queryID) changes) queryID := by
  induction events generalizing signatures changes with
  | nil => exact h
  | cons event events ih => exact ih (h.apply event)

end

/-! ## The signature of the attached rows -/

theorem toggled_eq_filter {changes : List RowChange} (h : ∀ row, 0 ≤ runningCount changes row) :
    toggled (toggledRows changes) = (attachedRows changes).filter fun row => Odd (runningCount changes row) := by
  ext row
  rw [mem_toggled, odd_count_toggledRows, Finset.mem_filter, attachedRows, Finset.mem_filter]
  constructor
  · intro hodd
    have hne : runningCount changes row ≠ 0 := by
      intro heq
      rw [heq] at hodd
      exact absurd hodd (by decide)
    refine ⟨⟨?_, lt_of_le_of_ne (h row) hne.symm⟩, hodd⟩
    have hcount : (toggledRows changes).count row ≠ 0 := by
      intro heq
      have hzero := (odd_count_toggledRows changes row).mpr hodd
      rw [heq] at hzero
      exact absurd hzero (by decide)
    have hmem := List.count_pos_iff.mp (Nat.pos_of_ne_zero hcount)
    obtain ⟨c, hc, hrow⟩ := List.mem_map.mp hmem
    exact List.mem_toFinset.mpr (List.mem_map.mpr ⟨c, List.mem_of_mem_filter hc, hrow⟩)
  · rintro ⟨-, hodd⟩
    exact hodd

/-- **What the signature of a query is a signature of.** In every run, it is the XOR of the units of the rows attached
to the query if and only if the units of the rows attached an even number of times cancel out. -/
theorem rowSetSignature_iff (stringify : List Value → String) (xxHash32 : String → ℕ → UInt32)
    (events : List DriverEvent) (queryID : String) (h : ∀ row, 0 ≤ runningCount (changesOf queryID events) row) :
    ((rowSetSignatures stringify xxHash32 events).get? queryID).getD 0 =
        xorUnits stringify xxHash32 (attachedRows (changesOf queryID events)) ↔
      xorUnits stringify xxHash32 ((attachedRows (changesOf queryID events)).filter fun row =>
        Even (runningCount (changesOf queryID events) row)) = 0 := by
  have hstart : Tracks stringify xxHash32 ∅ [] queryID := .none rfl
  have hrun : ((rowSetSignatures stringify xxHash32 events).get? queryID).getD 0 =
      xorUnits stringify xxHash32 (toggled (toggledRows (changesOf queryID events))) := hstart.run events
  rw [hrun, toggled_eq_filter h, xorUnits, xorUnits, xorUnits,
    setHash_filter_eq_iff _ selfInverse_xor]
  simp only [Int.not_odd_iff_even]

/-- The user `u1`, added or removed. -/
def userChange (type : RowChangeType) : RowChange where
  type
  queryID := "q"
  table := "users"
  rowKey := [("id", .str "u1")]

/-- The text of its row id. -/
def userText (_ : List Value) : String := "[\"\",\"users\",\"id\",\"u1\"]"

/-- What `xxHash32` makes of it. -/
def userHash (_ : String) (seed : ℕ) : UInt32 := if seed = 0 then 857289396 else 4181622048

theorem runningCount_nonneg {changes : List RowChange} (h : ∀ c ∈ changes, c.type ≠ .remove) (row : RowID) :
    0 ≤ runningCount changes row := by
  have hnone : changes.countP (fun c => c.type = .remove ∧ c.row = row) = 0 :=
    List.countP_eq_zero.mpr fun c hc => by simp [h c hc]
  rw [runningCount, hnone]
  omega

/-- A user that one parent reaches is in the signature. -/
theorem rowSetSignature_iff_added_once :
    ((rowSetSignatures userText userHash [.addQuery "q" [userChange .add]]).get? "q").getD 0 =
      xorUnits userText userHash (attachedRows (changesOf "q" [.addQuery "q" [userChange .add]])) :=
  (rowSetSignature_iff userText userHash [.addQuery "q" [userChange .add]] "q"
    (runningCount_nonneg (by decide))).mpr (by decide +kernel)

/-- A user that two parents reach is attached, and not in the signature. -/
theorem rowSetSignature_added_twice :
    (∀ row, 0 ≤ runningCount (changesOf "q" [.addQuery "q" [userChange .add, userChange .add]]) row) ∧
      ((rowSetSignatures userText userHash [.addQuery "q" [userChange .add, userChange .add]]).get? "q").getD 0 ≠
        xorUnits userText userHash (attachedRows (changesOf "q" [.addQuery "q" [userChange .add, userChange .add]])) :=
  ⟨runningCount_nonneg (by decide), by decide +kernel⟩

end ZeroSync.PipelineDriver
