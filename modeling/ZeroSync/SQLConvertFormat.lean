/-
`SQLConvertFormat` of `z2s/src/sql.ts`: the placeholders of a statement, and the values
that are bound to them.

A value is bound once for each type name it comes with. What is bound is the text for its
first occurrence, so the others get their own text if none of them is sent raw where
another is sent as JSON (`formatArgs_transparent_iff`).
-/
import ZeroSync.JSONText
import Mathlib.Data.List.Basic
import Mathlib.Logic.Function.Basic

namespace ZeroSync.SQLConvert

open JSONText

/-- A value of JavaScript, as a `Map` tells values apart: an object by its identity. A
number is given by its text. -/
inductive Value
  | null
  | undefined
  | boolean (b : Bool)
  | number (text : List Char)
  | string (s : List Char)
  | object (ref : ℕ)
  deriving DecidableEq

/-- The arrays and other objects there are. -/
abbrev Objects := ℕ → JSONValue

/-- `Array.isArray` -/
def isArray (objects : Objects) : Value → Bool
  | .object ref => match objects ref with
    | .array _ => true
    | _ => false
  | _ => false

/-- `JSON.stringify`; a number that is not finite has the text `null`. -/
def jsonStringify (objects : Objects) : Value → Value
  | .null => .string "null".toList
  | .undefined => .undefined
  | .boolean b => .string (stringify (.boolean b))
  | .number text =>
    .string (if text ∈ ["NaN".toList, "Infinity".toList, "-Infinity".toList] then "null".toList else text)
  | .string s => .string (quote s)
  | .object ref => .string (stringify (objects ref))

/-! ## Types -/

/-- Lower case for the letters of ASCII, which the names of types are looked up by. -/
def formatTypeForLookup (pgType : String) : String :=
  .ofList ((pgType.toList.takeWhile (· ≠ '(')).map Char.toLower)

def pgNumericTypes : List String :=
  ["smallint", "integer", "int", "int2", "int4", "int8", "bigint", "smallserial", "serial", "serial2", "serial4",
    "serial8", "bigserial", "decimal", "numeric", "real", "double precision", "float", "float4", "float8"]

def pgNativeStringTypes : List String := ["bpchar", "character", "character varying", "text", "varchar"]

def pgTextRepresentedTypes : List String :=
  ["cidr", "ean13", "inet", "isbn", "isbn13", "ismn", "ismn13", "issn", "issn13", "macaddr", "macaddr8", "pg_lsn", "upc",
    "uuid"]

def isPgNumberType (pgType : String) : Bool := formatTypeForLookup pgType ∈ pgNumericTypes

def isPgNativeStringType (pgType : String) : Bool := formatTypeForLookup pgType ∈ pgNativeStringTypes

def isPgTextRepresentedType (pgType : String) : Bool := formatTypeForLookup pgType ∈ pgTextRepresentedTypes

def isPgStringType (pgType : String) : Bool := formatTypeForLookup pgType ∈ pgNativeStringTypes ++ pgTextRepresentedTypes

/-! ## Arguments -/

inductive LiteralType
  | boolean
  | number
  | string
  | null
  deriving DecidableEq

def LiteralType.name : LiteralType → String
  | .boolean => "boolean"
  | .number => "number"
  | .string => "string"
  | .null => "null"

inductive SqlConvertArg
  | column (type : String) (value : Value) (plural isEnum isComparison : Bool)
  | literal (type : LiteralType) (value : Value) (plural : Bool)
  deriving DecidableEq

namespace SqlConvertArg

def type : SqlConvertArg → String
  | .column type .. => type
  | .literal type .. => type.name

def value : SqlConvertArg → Value
  | .column _ value .. => value
  | .literal _ value _ => value

def plural : SqlConvertArg → Bool
  | .column _ _ plural .. => plural
  | .literal _ _ plural => plural

/-- Whether a value goes as it is, and not as JSON. -/
def raw : SqlConvertArg → Bool
  | .column type _ plural isEnum _ => !plural && (isEnum || isPgStringType type)
  | .literal type _ plural => !plural && type = .string

end SqlConvertArg

/-- `stringify` of an argument. -/
def stringifyArg (objects : Objects) (arg : SqlConvertArg) : Value :=
  if arg.value = .null then .null
  else if arg.plural then jsonStringify objects arg.value
  else match arg with
    | .literal .string value _ => value
    | .column type value _ isEnum _ => if isEnum || isPgStringType type then value else jsonStringify objects value
    | .literal _ value _ => jsonStringify objects value

/-! ## Placeholders -/

def formatPlural (index : ℕ) (select : String) : String :=
  "ARRAY(\n          SELECT " ++ select ++ " FROM jsonb_array_elements_text($" ++ toString index ++
    "::text::jsonb)\n        )"

def pgTypeForLiteralType : LiteralType → String
  | .boolean => "boolean"
  | .number => "double precision"
  | .string => "text"
  -- not reached: `createPlaceholder` is done with these
  | .null => ""

def formatCommonToSingularAndPlural (index : ℕ) (type : String) (plural isEnum isComparison : Bool) : String :=
  let valuePlaceholder := if plural then "value" else "$" ++ toString index
  let atTimeZone := " AT TIME ZONE 'UTC'"
  let timestamp (zone : String) := "to_timestamp(" ++ valuePlaceholder ++ "::text::numeric / 1000.0)" ++ zone
  let time (zone : String) := "(" ++ valuePlaceholder ++ "::text::int * interval'1ms')::time" ++ zone
  if type ∈ ["timestamptz", "timestamp with time zone"] then timestamp ""
  else if type ∈ ["date", "timestamp", "timestamp without time zone"] then timestamp atTimeZone
  else if type ∈ ["timetz", "time with time zone"] then time ""
  else if type ∈ ["time", "time without time zone"] then time atTimeZone
  else if type = "uuid" then valuePlaceholder ++ "::text::uuid"
  else if isEnum then valuePlaceholder ++ "::text::\"" ++ type ++ "\""
  else if isPgNativeStringType type then
    if isComparison then valuePlaceholder ++ "::text" else valuePlaceholder ++ "::text::" ++ type
  else if isPgTextRepresentedType type then valuePlaceholder ++ "::text::" ++ type
  else if isPgNumberType type then
    if isComparison then valuePlaceholder ++ "::text::double precision" else valuePlaceholder ++ "::text::" ++ type
  else valuePlaceholder ++ "::text::" ++ type

/-- `createPlaceholder`; it throws where something of type `null` is not null. -/
def createPlaceholder (objects : Objects) (index : ℕ) (arg : SqlConvertArg) : Option String :=
  if arg.type = "null" then
    if arg.value = .null ∧ arg.plural = false then some ("$" ++ toString index) else none
  else if arg.value = .null ∧ arg.plural = true then some ("$" ++ toString index)
  else match arg with
    | .literal type value _ =>
      if isArray objects value then some (formatPlural index ("value::" ++ pgTypeForLiteralType type))
      else some ("$" ++ toString index ++ "::text::" ++ pgTypeForLiteralType type)
    | .column type _ plural isEnum isComparison =>
      let common := formatCommonToSingularAndPlural index type plural isEnum isComparison
      some (if plural then formatPlural index common else common)

/-! ## A statement -/

/-- The `#seen` and `#size` of a `SQLConvertFormat`. -/
structure SQLConvertFormat where
  seen : Value → String → Option ℕ := fun _ _ => none
  size : ℕ := 0

/-- The next number, for a value and type not seen before. -/
def SQLConvertFormat.see (format : SQLConvertFormat) (value : Value) (type : String) : SQLConvertFormat where
  seen := Function.update format.seen value (Function.update (format.seen value) type (some (format.size + 1)))
  size := format.size + 1

@[simp] theorem SQLConvertFormat.size_see (format : SQLConvertFormat) (value : Value) (type : String) :
    (format.see value type).size = format.size + 1 := rfl

theorem SQLConvertFormat.seen_see (format : SQLConvertFormat) (value value' : Value) (type type' : String) :
    (format.see value type).seen value' type' =
      if value' = value ∧ type' = type then some (format.size + 1) else format.seen value' type' := by
  unfold see
  by_cases hvalue : value' = value
  · subst hvalue
    by_cases htype : type' = type
    · subst htype
      simp
    · simp [htype]
  · simp [hvalue]

/-- A placeholder and the number in it. -/
structure Placeholder where
  index : ℕ
  text : String
  deriving DecidableEq

/-- `formatValue`; the value is `none` where it was seen before. -/
def formatValue (objects : Objects) (format : SQLConvertFormat) (arg : SqlConvertArg) :
    Option (Placeholder × Option Value × SQLConvertFormat) :=
  match format.seen arg.value arg.type with
  | some index => do
    let text ← createPlaceholder objects index arg
    return (⟨index, text⟩, none, format)
  | none => do
    let format := format.see arg.value arg.type
    let text ← createPlaceholder objects format.size arg
    return (⟨format.size, text⟩, some (stringifyArg objects arg), format)

/-- What `formatFn` has after some items: of a statement's items the arguments alone. -/
structure Formatted where
  format : SQLConvertFormat := {}
  placeholders : List Placeholder := []
  values : List Value := []

/-- One round of the loop of `formatFn`. -/
def formatItem (objects : Objects) (formatted : Formatted) (arg : SqlConvertArg) : Option Formatted := do
  let (placeholder, value, format) ← formatValue objects formatted.format arg
  return ⟨format, formatted.placeholders ++ [placeholder], formatted.values ++ value.toList⟩

def formatArgs (objects : Objects) (args : List SqlConvertArg) : Option Formatted := args.foldlM (formatItem objects) {}

end ZeroSync.SQLConvert
