/-
Replicache's subscriptions: `SubscriptionTransactionWrapper` (`transactions.ts`),
which notes what a body reads, the scans it reads by (`scan-iterator.ts`), and
`matches` (`subscriptions.ts`), which tells from the notes whether a change can
matter.

A body is a tree of the calls it makes and awaits (`Body`). The iterators of a scan
result take their entries from one generator. Strings are well formed, so that
`compareUTF8` is the order of their code points. The indexes of a client are
those it was made with, and none is named by the empty string, the name that
diffs have for the primary map.
-/
import ZeroSync.DbIndex
import Mathlib.Data.String.Basic
import Mathlib.Data.Rat.Init

namespace ZeroSync.Subscriptions

/-! ## `scan-options.ts` -/

abbrev IndexName := { name : String // name ≠ "" }

/-- `ScanOptionIndexedStartKey`. -/
inductive IndexedStartKey where
  | string (secondary : String)
  | tuple (secondary : String) (primary : Option String)

def normalizeScanOptionIndexedStartKey : IndexedStartKey → String × Option String
  | .string secondary => (secondary, none)
  | .tuple secondary primary => (secondary, primary)

structure Start (K : Type) where
  key : K
  exclusive : Bool

/-- What a scan is over: the primary map, or an index. -/
inductive ScanMap where
  | primary (start : Option (Start String))
  | index (indexName : IndexName) (start : Option (Start IndexedStartKey))

/-- `ScanOptions`; `keyPrefix` is `prefix`. -/
structure ScanOptions where
  keyPrefix : Option String
  limit : Option ℚ
  target : ScanMap

/-- `db/scan.ts`. -/
structure DbScanOptions where
  keyPrefix : Option String
  startSecondaryKey : Option String
  startKey : Option String
  startExclusive : Bool
  limit : Option ℚ
  indexName : Option String

def toDbScanOptions (options : ScanOptions) : DbScanOptions :=
  match options.target with
  | .primary none => ⟨options.keyPrefix, none, none, false, options.limit, none⟩
  | .primary (some start) => ⟨options.keyPrefix, none, some start.key, start.exclusive, options.limit, none⟩
  | .index indexName none => ⟨options.keyPrefix, none, none, false, options.limit, some indexName⟩
  | .index indexName (some start) =>
    let (secondary, primary) := normalizeScanOptionIndexedStartKey start.key
    ⟨options.keyPrefix, some secondary, primary, start.exclusive, options.limit, some indexName⟩

/-! ## `db/index.ts` -/

inductive ScanError where
  | unknownIndex (indexName : String)
  | encode (e : IndexError)
  | invalidVersion
  | invalidFormatting

def KEY_SEPARATOR : Char := '\x00'

def encodeIndexScanKey (secondary : String) (primary : Option String) : Except ScanError String :=
  match encodeIndexKey secondary (primary.getD ""), primary with
  | .error e, _ => .error (.encode e)
  | .ok k, none => .ok (String.ofList k.toList.dropLast)
  | .ok k, some _ => .ok k

def decodeIndexKey (encodedIndexKey : String) : Except ScanError (String × String) :=
  match encodedIndexKey.toList with
  | [] => .error .invalidVersion
  | version :: rest =>
    if version ≠ '\x00' then .error .invalidVersion
    else
      match rest.dropWhile (· ≠ KEY_SEPARATOR) with
      | [] => .error .invalidFormatting
      | _ :: primary => .ok (String.ofList (rest.takeWhile (· ≠ KEY_SEPARATOR)), String.ofList primary)

/-! ## `scan-iterator.ts` -/

/-- The state of a client whose indexes have these names. -/
structure ReadState (V : Type) (indexNames : List IndexName) where
  map : List (String × V)
  indexes : IndexName → List (String × V)
  map_sorted : map.Pairwise (·.1 < ·.1)
  index_sorted : ∀ indexName, (indexes indexName).Pairwise (·.1 < ·.1)
  /-- The keys of an index are encoded ones. -/
  index_keys : ∀ indexName, ∀ e ∈ indexes indexName, ∃ secondary primary, encodeIndexKey secondary primary = .ok e.1

/-- The key of an entry that a scan yields. -/
inductive ScanKey where
  | primary (key : String)
  | index (secondary primary : String)
  deriving DecidableEq

variable {V R : Type} {indexNames : List IndexName}

/-- Whether a string starts with another. -/
def startsWith (s start : String) : Bool := start.toList.isPrefixOf s.toList

def fromKeyForNonIndexScan (keyPrefix : Option String) (start : Option (Start String)) : String :=
  let keyPrefix := keyPrefix.getD ""
  match start with
  | none => keyPrefix
  | some start => if start.key > keyPrefix then start.key else keyPrefix

def fromKeyForIndexScanInternal (keyPrefix : Option String) (start : Option (Start IndexedStartKey)) :
    Except ScanError String := do
  let prefix2 ← (match keyPrefix with
    | none => .ok ""
    | some keyPrefix => encodeIndexScanKey keyPrefix none)
  match start with
  | none => .ok prefix2
  | some start =>
    let (secondary, primary) := normalizeScanOptionIndexedStartKey start.key
    let startKey ← encodeIndexScanKey secondary primary
    .ok (if startKey > prefix2 then startKey else prefix2)

/-- The key a scan starts at in its map. -/
def ScanOptions.fromKey (options : ScanOptions) : Except ScanError String :=
  match options.target with
  | .primary start => .ok (fromKeyForNonIndexScan options.keyPrefix start)
  | .index _ start => fromKeyForIndexScanInternal options.keyPrefix start

/-- The map of a scan; `none` where there is no index of the name. -/
def ReadState.mapFor (s : ReadState V indexNames) : ScanMap → Option (List (String × V))
  | .primary _ => some s.map
  | .index indexName _ => if indexName ∈ indexNames then some (s.indexes indexName) else none

/-- `getScanIterator`: what the generator is going to give, or throw when it is first asked. -/
def getScanIterator (s : ReadState V indexNames) (options : ScanOptions) : Except ScanError (List (String × V)) :=
  match s.mapFor options.target, options.target with
  | none, .index indexName _ => .error (.unknownIndex indexName)
  | none, .primary _ => .ok []
  | some entries, _ => do
    let fromKey ← options.fromKey
    .ok (entries.filter fun e => fromKey ≤ e.1)

/-- The key of an entry, which is decoded in an index. -/
def ScanMap.readKey (target : ScanMap) (key : String) : Except ScanError ScanKey :=
  match target with
  | .primary _ => .ok (.primary key)
  | .index _ _ => (decodeIndexKey key).map fun (secondaryKey, primaryKey) => .index secondaryKey primaryKey

def ScanKey.keyToMatch : ScanKey → String
  | .primary key => key
  | .index secondary _ => secondary

def shouldSkipIndexScan (secondaryKey primaryKey : String) (startKey : IndexedStartKey) : Bool :=
  let (secondaryStartKey, primaryStartKey) := normalizeScanOptionIndexedStartKey startKey
  if secondaryKey ≠ secondaryStartKey then false
  else match primaryStartKey with
    | none => true
    | some primaryStartKey => primaryKey = primaryStartKey

def shouldSkipNonIndexScan (key startKey : String) : Bool := key = startKey

/-- Whether an exclusive start leaves an entry out. -/
def ScanMap.skips : ScanMap → ScanKey → Bool
  | .primary (some start), .primary key => start.exclusive && shouldSkipNonIndexScan key start.key
  | .index _ (some start), .index secondaryKey primaryKey =>
    start.exclusive && shouldSkipIndexScan secondaryKey primaryKey start.key
  | _, _ => false

/-- What the generator gives a loop: an entry with its key in the map, or nothing
more. A loop that leaves closes the generator. -/
def pull (options : ScanOptions) : List (String × V) → Except ScanError (Option (String × ScanKey × V)) × List (String × V)
  | [] => (.ok none, [])
  | (mapKey, value) :: rest =>
    match options.target.readKey mapKey with
    | .error e => (.error e, [])
    | .ok key =>
      if !startsWith key.keyToMatch (options.keyPrefix.getD "") then (.ok none, [])
      else if options.target.skips key then pull options rest
      else (.ok (some (mapKey, key, value)), rest)

/-- A `scanIterator`: the variable `limit`, and the key of the entry that it has
yielded last. -/
structure ScanIterator where
  limit : Option ℚ
  yielded : Option String
  finished : Bool

structure ScanSubscriptionInfo where
  options : DbScanOptions
  inclusiveLimitKey : Option String

/-- What a scan has given last. -/
inductive Given where
  | nothing
  | entry (key : String)
  | done

/-- A scan: what is noted of it, and its result with the iterators made of it.
`given` is for the statements alone. -/
structure Scan (V : Type) where
  info : ScanSubscriptionInfo
  options : ScanOptions
  generator : Except ScanError (List (String × V))
  iterators : List ScanIterator
  given : Given

def ScanMap.isIndex : ScanMap → Bool
  | .primary _ => false
  | .index _ _ => true

namespace Scan

def finish (scan : Scan V) (i : ℕ) : Scan V :=
  { scan with iterators := scan.iterators.modify i fun it => { it with finished := true } }

/-- The loop goes on, to the next entry that it yields. -/
def advance (scan : Scan V) (i : ℕ) (limit : Option ℚ) : Except ScanError (Option (ScanKey × V)) × Scan V :=
  match scan.generator with
  | .error e => (.error e, { scan.finish i with generator := .ok [] })
  | .ok entries =>
    match pull scan.options entries with
    | (.error e, rest) => (.error e, { scan.finish i with generator := .ok rest, given := .done })
    | (.ok none, rest) => (.ok none, { scan.finish i with generator := .ok rest, given := .done })
    | (.ok (some (mapKey, key, value)), rest) =>
      (.ok (some (key, value)),
        { scan with
          generator := .ok rest
          iterators := scan.iterators.set i { limit, yielded := some mapKey, finished := false }
          given := .entry mapKey })

/-- `next()` of an iterator. -/
def next (scan : Scan V) (i : ℕ) : Except ScanError (Option (ScanKey × V)) × Scan V :=
  match scan.iterators[i]? with
  | none => (.ok none, scan)
  | some it =>
    if it.finished then (.ok none, scan)
    else match it.yielded with
      | none => scan.advance i it.limit
      | some key =>
        let limit := it.limit.map (· - 1)
        if limit = some 0 then
          let inclusiveLimitKey := if scan.options.target.isIndex then scan.info.inclusiveLimitKey else some key
          (.ok none, { scan.finish i with info := { scan.info with inclusiveLimitKey }, generator := .ok [] })
        else scan.advance i limit

/-- `return()` of an iterator; one that has not been started has nothing to close. -/
def stop (scan : Scan V) (i : ℕ) : Scan V :=
  match scan.iterators[i]? with
  | none => scan
  | some it =>
    if it.finished then scan
    else match it.yielded with
      | none => scan.finish i
      | some _ => { scan.finish i with generator := .ok [] }

/-- `#newIterator`. -/
def newIterator (scan : Scan V) : Scan V :=
  { scan with iterators := scan.iterators ++ [{ limit := scan.options.limit, yielded := none, finished := false }] }

end Scan

/-! ## `SubscriptionTransactionWrapper` -/

/-- The body of a subscription: the calls it makes, and what it does with what
they return. A scan result and an iterator of it are known by their numbers. -/
inductive Body (V R : Type) where
  | result (r : R)
  | get (key : String) (next : Option V → Body V R)
  | has (key : String) (next : Bool → Body V R)
  | isEmpty (next : Bool → Body V R)
  | scan (options : ScanOptions) (next : ℕ → Body V R)
  | newIterator (scan : ℕ) (next : ℕ → Body V R)
  | next (scan iterator : ℕ) (next : Except ScanError (Option (ScanKey × V)) → Body V R)
  | stop (scan iterator : ℕ) (next : Body V R)

/-- What is noted in a run of a body. -/
structure SubscriptionTransactionWrapper (V : Type) where
  keys : List String
  scans : List (Scan V)

namespace SubscriptionTransactionWrapper

def new : SubscriptionTransactionWrapper V := ⟨[], []⟩

def modifyScan (tx : SubscriptionTransactionWrapper V) (j : ℕ) (f : Scan V → Scan V) : SubscriptionTransactionWrapper V :=
  { tx with scans := tx.scans.modify j f }

end SubscriptionTransactionWrapper

/-- The value of a key in a map. -/
def lookup (entries : List (String × V)) (key : String) : Option V := (entries.find? (·.1 = key)).map (·.2)

/-- The options `{}`. -/
def ScanOptions.none : ScanOptions := ⟨.none, .none, .primary .none⟩

def openScan (s : ReadState V indexNames) (options : ScanOptions) : Scan V :=
  { info := ⟨toDbScanOptions options, none⟩, options, generator := getScanIterator s options
    iterators := [], given := .nothing }

/-- `isEmpty` notes a scan of everything, and makes none. -/
def noteAll : Scan V :=
  { info := ⟨toDbScanOptions .none, none⟩, options := .none, generator := .ok [], iterators := [], given := .nothing }

/-- A run of a body on a state: its result, and what has been noted. -/
def Body.run (s : ReadState V indexNames) : Body V R → SubscriptionTransactionWrapper V →
    R × SubscriptionTransactionWrapper V
  | .result r, tx => (r, tx)
  | .get key go, tx => (go (lookup s.map key)).run s { tx with keys := key :: tx.keys }
  | .has key go, tx => (go (lookup s.map key).isSome).run s { tx with keys := key :: tx.keys }
  | .isEmpty go, tx => (go s.map.isEmpty).run s { tx with scans := tx.scans ++ [noteAll] }
  | .scan options go, tx => (go tx.scans.length).run s { tx with scans := tx.scans ++ [openScan s options] }
  | .newIterator j go, tx =>
    let i := (tx.scans[j]?.map fun result => result.iterators.length).getD 0
    (go i).run s (tx.modifyScan j Scan.newIterator)
  | .next j i go, tx =>
    match tx.scans[j]? with
    | none => (go (.ok none)).run s tx
    | some opened => (go (opened.next i).1).run s (tx.modifyScan j fun opened => (opened.next i).2)
  | .stop j i go, tx => go.run s (tx.modifyScan j fun opened => opened.stop i)

/-! ## `subscriptions.ts` -/

/-- A string that is there and not empty. -/
def truthy (s : Option String) : Option String := s.filter (· ≠ "")

def isKeyPastInclusiveLimit (scanInfo : ScanSubscriptionInfo) (changedKey : String) : Bool :=
  scanInfo.options.limit.isSome && scanInfo.inclusiveLimitKey.any (changedKey > ·)

/-- The part of `scanInfoMatchesKey` for the primary map. -/
def matchesPrimaryKey (scanInfo : ScanSubscriptionInfo) (changedKey : String) : Bool :=
  let options := scanInfo.options
  if options.limit.any (· ≤ 0) then false
  else if (truthy options.keyPrefix).isNone && (truthy options.startKey).isNone then true
  else if (truthy options.keyPrefix).any fun keyPrefix =>
    !startsWith changedKey keyPrefix || isKeyPastInclusiveLimit scanInfo changedKey then false
  else if (truthy options.startKey).any fun startKey =>
    (options.startExclusive && changedKey ≤ startKey) || changedKey < startKey ||
      isKeyPastInclusiveLimit scanInfo changedKey then false
  else true

/-- The part of `scanInfoMatchesKey` for an index, from where the key has been decoded. -/
def matchesIndexKey (options : DbScanOptions) (changedKeySecondary changedKeyPrimary : String) : Bool :=
  if (truthy options.keyPrefix).any fun keyPrefix => !startsWith changedKeySecondary keyPrefix then false
  else if (truthy options.startSecondaryKey).any fun startSecondaryKey =>
    (options.startExclusive && changedKeySecondary ≤ startSecondaryKey) ||
      changedKeySecondary < startSecondaryKey then false
  else if (truthy options.startKey).any fun startKey =>
    (options.startExclusive && changedKeyPrimary ≤ startKey) || changedKeyPrimary < startKey then false
  else true

def scanInfoMatchesKey (scanInfo : ScanSubscriptionInfo) (changeIndexName changedKey : String) : Except ScanError Bool :=
  let options := scanInfo.options
  let indexName := options.indexName.getD ""
  if changeIndexName ≠ indexName then .ok false
  else if indexName = "" then .ok (matchesPrimaryKey scanInfo changedKey)
  else if (truthy options.keyPrefix).isNone && (truthy options.startKey).isNone &&
    (truthy options.startSecondaryKey).isNone then .ok true
  else do
    let (changedKeySecondary, changedKeyPrimary) ← decodeIndexKey changedKey
    .ok (matchesIndexKey options changedKeySecondary changedKeyPrimary)

/-- A diff as the keys of its entries. -/
abbrev InternalDiff := List String

/-- The diffs by the name of the index, which is empty for the primary map. -/
abbrev DiffsMap := List (String × InternalDiff)

def scanInfoMatchesDiff (scanInfo : ScanSubscriptionInfo) (changeIndexName : String) (diff : InternalDiff) :
    Except ScanError Bool :=
  diff.anyM (scanInfoMatchesKey scanInfo changeIndexName)

def diffMatchesSubscription (keys : List String) (scans : List ScanSubscriptionInfo) (indexName : String)
    (diff : InternalDiff) : Except ScanError Bool :=
  if indexName = "" && diff.any keys.contains then .ok true
  else scans.anyM fun scanInfo => scanInfoMatchesDiff scanInfo indexName diff

/-- `SubscriptionImpl.matches`, with the dependencies of a run. -/
def SubscriptionTransactionWrapper.matches (tx : SubscriptionTransactionWrapper V) (diffs : DiffsMap) :
    Except ScanError Bool :=
  diffs.anyM fun (indexName, diff) => diffMatchesSubscription tx.keys (tx.scans.map Scan.info) indexName diff

end ZeroSync.Subscriptions
