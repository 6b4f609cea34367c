/-
`replicache/src/db/index.ts` and `db/write.ts`: the secondary indexes of a write.

The primary map and each index map are the maps that their trees hold. What
`updateIndexes` starts runs concurrently: the calls of a loop wait for one
another, and those of both loops for the lock of the index tree.
-/
import ZeroSync.Patch

namespace ZeroSync

/-- `FrozenJSONValue`; nothing looks into a number. -/
inductive FrozenJSONValue (N : Type)
  | null
  | bool (value : Bool)
  | number (value : N)
  | string (value : String)
  | array (elements : List (FrozenJSONValue N))
  | object (properties : List (String × FrozenJSONValue N))

/-- `IndexOperation`. -/
inductive IndexOperation
  | add
  | remove

/-- Why a value is not indexed. -/
inductive IndexError
  | nullByte
  | noValue
  | unsupported
  | invalidPointer

/-- `ChunkIndexDefinition`. -/
structure ChunkIndexDefinition where
  keyPrefix : String
  jsonPointer : String
  allowEmpty : Option Bool

variable {N : Type}

/-- The map that a tree holds. -/
abbrev ValueMap (N : Type) := String → Option (FrozenJSONValue N)

/-! ## `evaluateJSONPointer` -/

/-- The white space that `parseInt` skips. -/
def isWhiteSpace (c : Char) : Bool :=
  c.toNat ∈ [0x9, 0xA, 0xB, 0xC, 0xD, 0x20, 0xA0, 0x1680, 0x2028, 0x2029, 0x202F, 0x205F, 0x3000, 0xFEFF] ||
    (0x2000 ≤ c.toNat && c.toNat ≤ 0x200A)

/-- The digits a string starts with. -/
def parseDigits (s : List Char) : Option ℕ :=
  match s.takeWhile Char.isDigit with
  | [] => none
  | digits => some (digits.foldl (fun n c => 10 * n + (c.toNat - '0'.toNat)) 0)

/-- `parseInt`, when it is a natural number; `-0` is 0. -/
def parseNat (s : List Char) : Option ℕ :=
  match s.dropWhile isWhiteSpace with
  | '+' :: s => parseDigits s
  | '-' :: s => (parseDigits s).filter (· = 0)
  | s => parseDigits s

/-- `parseIndex`; an array has no element at an index that is not a natural number. -/
def parseIndex (s : List Char) : Option ℕ :=
  if s.head? = some '+' || (s.head? = some '0' && s.length ≠ 1) then none else parseNat s

/-- `replace` of `~` and a digit by what they stand for. -/
def replaceTilde (digit plain : Char) : List Char → List Char
  | '~' :: c :: s => if c = digit then plain :: replaceTilde digit plain s else '~' :: replaceTilde digit plain (c :: s)
  | c :: s => c :: replaceTilde digit plain s
  | [] => []

/-- The loop over the tokens. A property that is inherited is no string and no array of them. -/
def evaluateTokens : FrozenJSONValue N → List (List Char) → Option (FrozenJSONValue N)
  | target, [] => some target
  | .array elements, token :: tokens => do
    let i ← parseIndex token
    let target ← elements[i]?
    evaluateTokens target tokens
  | .object properties, token :: tokens => do
    let target ← OrderedMap.lookup (String.ofList token) properties
    evaluateTokens target tokens
  | _, _ :: _ => none

/-- `evaluateJSONPointer`. -/
def evaluateJSONPointer (value : FrozenJSONValue N) (pointer : String) : Except IndexError (Option (FrozenJSONValue N)) :=
  match pointer.toList with
  | [] => .ok (some value)
  | '/' :: s => .ok (evaluateTokens value ((s.splitOn '/').map fun x => replaceTilde '0' '~' (replaceTilde '1' '/' x)))
  | _ => .error .invalidPointer

/-! ## The keys of an index -/

/-- `encodeIndexKey`. -/
def encodeIndexKey (secondary primary : String) : Except IndexError String :=
  if '\x00' ∈ secondary.toList then .error .nullByte
  else .ok (String.ofList ('\x00' :: secondary.toList ++ '\x00' :: primary.toList))

/-- The key of one of the values. -/
def indexKey (primary : String) : FrozenJSONValue N → Except IndexError String
  | .string value => encodeIndexKey value primary
  | _ => .error .unsupported

/-- `Array.isArray(target) ? target : [target]`. -/
def targetValues : FrozenJSONValue N → List (FrozenJSONValue N)
  | .array elements => elements
  | target => [target]

/-- `getIndexKeys`. -/
def getIndexKeys (primary : String) (value : FrozenJSONValue N) (jsonPointer : String) (allowEmpty : Bool) :
    Except IndexError (List String) := do
  match ← evaluateJSONPointer value jsonPointer with
  | none => if allowEmpty then return [] else throw .noValue
  | some target => (targetValues target).mapM (indexKey primary)

/-! ## Updates -/

/-- A call on an index tree. -/
inductive IndexCall (N : Type)
  | put (entry : String) (value : FrozenJSONValue N)
  | del (entry : String)

/-- What a call does when it has the lock. -/
def IndexCall.run (map : ValueMap N) : IndexCall N → ValueMap N
  | put entry value => fun k => if k = entry then some value else map k
  | del entry => fun k => if k = entry then none else map k

/-- `indexValue`: the calls that its loop makes, none when there is an error. -/
def indexValue (op : IndexOperation) (key : String) (value : FrozenJSONValue N) (jsonPointer : String) (allowEmpty : Bool) :
    List (IndexCall N) :=
  match getIndexKeys key value jsonPointer allowEmpty with
  | .ok entries =>
    entries.map fun entry =>
      match op with
      | .add => .put entry value
      | .remove => .del entry
  | .error _ => []

/-- The lock: the first of the loops that wait makes its call, and waits with
the next one behind the others. -/
def serve (map : ValueMap N) : List (List (IndexCall N)) → ValueMap N
  | [] => map
  | [] :: waiting => serve map waiting
  | (call :: left) :: waiting => serve (call.run map) (waiting ++ [left])
termination_by waiting => (waiting.map (·.length + 1)).sum
decreasing_by
  all_goals simp only [List.map_cons, List.map_append, List.map_nil, List.sum_cons, List.sum_append, List.sum_nil,
    List.length_cons]
  all_goals omega

/-- `IndexWrite`. -/
structure IndexWrite (N : Type) where
  definition : ChunkIndexDefinition
  map : ValueMap N

/-- `!keyPrefix || key.startsWith(keyPrefix)`. -/
def ChunkIndexDefinition.covers (definition : ChunkIndexDefinition) (key : String) : Bool :=
  definition.keyPrefix = "" || definition.keyPrefix.toList.isPrefixOf key.toList

/-- The loop that one value of an entry starts. -/
def ChunkIndexDefinition.calls (definition : ChunkIndexDefinition) (op : IndexOperation) (key : String)
    (value : FrozenJSONValue N) : List (IndexCall N) :=
  indexValue op key value definition.jsonPointer (definition.allowEmpty.getD false)

/-- `updateIndexes` for one index. -/
def updateIndex (map : ValueMap N) (key : String) (newVal : Option (FrozenJSONValue N)) (idx : IndexWrite N) : IndexWrite N :=
  if idx.definition.covers key then
    { idx with map := serve idx.map (((map key).map (idx.definition.calls .remove key)).toList ++
        (newVal.map (idx.definition.calls .add key)).toList) }
  else idx

/-- `updateIndexes`. -/
def updateIndexes (map : ValueMap N) (indexes : List (IndexWrite N)) (key : String) (newVal : Option (FrozenJSONValue N)) :
    List (IndexWrite N) :=
  indexes.map (updateIndex map key newVal)

/-- The maps of a `Write`. -/
structure DbWrite (N : Type) where
  map : ValueMap N
  indexes : List (IndexWrite N)

namespace DbWrite

/-- `put`. -/
def put (w : DbWrite N) (key : String) (value : FrozenJSONValue N) : DbWrite N where
  indexes := updateIndexes w.map w.indexes key (some value)
  map := fun k => if k = key then some value else w.map k

/-- `putMany`; it throws when the entries do not ascend. -/
def putMany (w : DbWrite N) (entries : List (String × FrozenJSONValue N)) : Option (DbWrite N) :=
  if entries.isEmpty then some w
  else
    let indexes := entries.foldl (fun indexes e => updateIndexes w.map indexes e.1 (some e.2)) w.indexes
    if View.ascending (entries.map (·.1)) then
      some { indexes := indexes, map := entries.foldl (fun map e k => if k = e.1 then some e.2 else map k) w.map }
    else none

/-- `del`. -/
def del (w : DbWrite N) (key : String) : DbWrite N where
  indexes := updateIndexes w.map w.indexes key none
  map := fun k => if k = key then none else w.map k

/-- `clear`. -/
def clear (w : DbWrite N) : DbWrite N where
  map := fun _ => none
  indexes := w.indexes.map fun idx => { idx with map := fun _ => none }

end DbWrite

/-- A call of a write. -/
inductive WriteOperation (N : Type)
  | put (key : String) (value : FrozenJSONValue N)
  | putMany (entries : List (String × FrozenJSONValue N))
  | del (key : String)
  | clear

/-- A call of a write, unless it throws. -/
def DbWrite.run (w : DbWrite N) : WriteOperation N → Option (DbWrite N)
  | .put key value => some (w.put key value)
  | .putMany entries => w.putMany entries
  | .del key => some (w.del key)
  | .clear => some w.clear

end ZeroSync
