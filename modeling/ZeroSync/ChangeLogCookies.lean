/-
`replicator/change-log-cookies.ts`: what a change log remembers of backfills
that are not done, folded over its schema changes (`foldCookies`), and the
requests a change source is started with (`backfillRequestsFrom`).

The maps of the fold are keyed by the JSON text of names, which is different
for different names: here they are keyed by the names, and a cookie's own
names are those of its key.
-/
import ZeroSync.BackfillManager
import ZeroSync.StateVersion

namespace ZeroSync.Backfills

variable {J : Type}

structure TableMetadataCookie (J : Type) where
  table : Identifier
  metadata : TableMetadata J

structure BackfillCookie (J : Type) where
  table : Identifier
  column : String
  backfill : J

structure CookieSet (J : Type) where
  tableMetadata : List (TableMetadataCookie J)
  backfilling : List (BackfillCookie J)

inductive CookieOp (J : Type)
  | upsertMetadata (table : Identifier) (metadata : TableMetadata J)
  | upsertBackfill (table : Identifier) (column : String) (backfill : J)
  | renameTable (old new : Identifier)
  | dropTable (table : Identifier)
  | renameColumn (table : Identifier) (old new : String)
  | dropColumn (table : Identifier) (column : String)
  | completeBackfill (table : Identifier) (columns : List String)

/-- `cookieOps`. A data change or a `backfill` message is no schema change. -/
def cookieOps : DataChange J → List (CookieOp J)
  | .source (.updateTableMetadata table new) => [.upsertMetadata table new]
  | .source (.createTable table metadata backfill) =>
    (metadata.map (.upsertMetadata table)).toList ++
      ((backfill.map (·.entries)).getD []).map fun e => .upsertBackfill table e.1 e.2
  | .source (.renameTable old new) => [.renameTable old new]
  | .source (.dropTable id) => [.dropTable id]
  | .source (.addColumn table column tableMetadata backfill) =>
    (tableMetadata.map (.upsertMetadata table)).toList ++ (backfill.map (.upsertBackfill table column)).toList
  | .source (.updateColumn table old new) => if old = new then [] else [.renameColumn table old new]
  | .source (.dropColumn table column) => [.dropColumn table column]
  | .source (.update ..) | .source .other => []
  | .backfill (.completed relation columns _) =>
    let cleared := relation.rowKeyColumns ++ columns
    if cleared = [] then [] else [.completeBackfill relation.id cleared]
  | .backfill (.backfill ..) => []

/-- The maps of `foldCookies`. -/
structure Cookies (J : Type) where
  metadata : OrderedMap Identifier (TableMetadata J)
  backfilling : OrderedMap (Identifier × String) J

namespace Cookies

/-- The cookies that `foldCookies` starts from. -/
def of (cookies : CookieSet J) : Cookies J where
  metadata := OrderedMap.ofList (cookies.tableMetadata.map fun c => (c.table, c.metadata))
  backfilling := OrderedMap.ofList (cookies.backfilling.map fun c => ((c.table, c.column), c.backfill))

/-- `dropColumn`. -/
def dropColumn (s : Cookies J) (table : Identifier) (column : String) : Cookies J :=
  { s with backfilling := s.backfilling.erase (table, column) }

/-- The loop of `rename-table`. -/
def moveColumns (old new : Identifier) (entries : List ((Identifier × String) × J)) (backfilling : OrderedMap (Identifier × String) J) :
    OrderedMap (Identifier × String) J :=
  entries.foldl (fun m e => if e.1.1 = old then (m.erase e.1).set (new, e.1.2) e.2 else m) backfilling

/-- The loop of `drop-table`. -/
def dropColumns (table : Identifier) (entries : List ((Identifier × String) × J)) (backfilling : OrderedMap (Identifier × String) J) :
    OrderedMap (Identifier × String) J :=
  entries.foldl (fun m e => if e.1.1 = table then m.erase e.1 else m) backfilling

/-- The `case`s of `foldCookies`. -/
def apply (s : Cookies J) : CookieOp J → Cookies J
  | .upsertMetadata table metadata => { s with metadata := s.metadata.set table metadata }
  | .upsertBackfill table column backfill => { s with backfilling := s.backfilling.set (table, column) backfill }
  | .renameTable old new =>
    { metadata :=
        match s.metadata.get? old with
        | some moved => (s.metadata.erase old).set new moved
        | none => s.metadata
      backfilling := moveColumns old new s.backfilling.entries s.backfilling }
  | .dropTable table =>
    { metadata := s.metadata.erase table
      backfilling := dropColumns table s.backfilling.entries s.backfilling }
  | .renameColumn table old new =>
    match s.backfilling.get? (table, old) with
    | some moved => { s with backfilling := (s.backfilling.erase (table, old)).set (table, new) moved }
    | none => s
  | .dropColumn table column => s.dropColumn table column
  | .completeBackfill table columns => columns.foldl (fun s column => s.dropColumn table column) s

/-- A change of the log. -/
def change (s : Cookies J) (c : DataChange J) : Cookies J := (cookieOps c).foldl apply s

end Cookies

/-- `cmp`. -/
def cmp (a b : String) : Ordering := if stringLt a b then .lt else if stringLt b a then .gt else .eq

/-- `cmp(a.schema, b.schema) || cmp(a.table, b.table)` -/
def cmpTable (a b : Identifier) : Ordering := (cmp a.schema b.schema).then (cmp a.name b.name)

/-- The order of the cookies of columns. -/
def cmpColumn (a b : Identifier × String) : Ordering := (cmpTable a.1 b.1).then (cmp a.2 b.2)

/-- What `foldCookies` returns of its maps. -/
def Cookies.sorted (s : Cookies J) : CookieSet J where
  tableMetadata :=
    (s.metadata.entries.mergeSort fun a b => (cmpTable a.1 b.1).isLE).map fun e => ⟨e.1, e.2⟩
  backfilling :=
    (s.backfilling.entries.mergeSort fun a b => (cmpColumn a.1 b.1).isLE).map fun e => ⟨e.1.1, e.1.2, e.2⟩

/-- `foldCookies`. -/
def foldCookies (cookies : CookieSet J) (changes : List (DataChange J)) : CookieSet J :=
  (changes.foldl Cookies.change (.of cookies)).sorted

/-- `columns[column] = backfill`: an object's `__proto__` is no property of its own. -/
def Columns.assign (columns : Columns J) (column : String) (backfill : J) : Columns J :=
  if column = "__proto__" then columns else columns.set column (.id backfill)

/-- A step of the loop of `backfillRequestsFrom`; `requests` is in reverse, `curr` its head. -/
def addCookie (metadata : OrderedMap Identifier (TableMetadata J)) (requests : List (BackfillRequest J)) (c : BackfillCookie J) :
    List (BackfillRequest J) :=
  let start : BackfillRequest J := { table := c.table, metadata := metadata.get? c.table, columns := Columns.assign ∅ c.column c.backfill }
  match requests with
  | [] => [start]
  | curr :: requests =>
    if curr.table = c.table then { curr with columns := curr.columns.assign c.column c.backfill } :: requests
    else start :: curr :: requests

/-- `backfillRequestsFrom`. -/
def backfillRequestsFrom (cookies : CookieSet J) : List (BackfillRequest J) :=
  let metadata := OrderedMap.ofList (cookies.tableMetadata.map fun c => (c.table, c.metadata))
  (cookies.backfilling.foldl (addCookie metadata) []).reverse

end ZeroSync.Backfills
