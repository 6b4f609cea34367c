/-
`BinaryCopyParser` of `db/pg-copy-binary.ts`: the fields of a `COPY … (FORMAT binary)`
stream, from chunks that may end anywhere.

The parser keeps the bytes it could not use yet. Its loops are modelled with fuel, as
nothing in them makes sure that they end. `Progress.feed` says what a stream is without
buffers and offsets: each division of it into chunks reads the same (`feed_append`).
-/
import ZeroSync.BigEndian

namespace ZeroSync.BinaryCopy

open BigEndian

def PGCOPY_SIGNATURE : List UInt8 := [0x50, 0x47, 0x43, 0x4f, 0x50, 0x59, 0x0a, 0xff, 0x0d, 0x0a, 0x00]

def HEADER_MIN_SIZE : ℤ := 11 + 4 + 4

/-- What a field is: bytes, or `null`. -/
abbrev Field := Option (List UInt8)

inductive ParseError
  | invalidSignature
  | unsupportedFlags (flags : ℤ)
  | outOfRange
  deriving DecidableEq

/-- `Buffer.subarray` counts from the end where an index is negative. -/
def relativeIndex (length : ℕ) (index : ℤ) : ℕ := if index < 0 then (length + index).toNat else min index.toNat length

def subarray (buf : List UInt8) (start stop : ℤ) : List UInt8 :=
  (buf.take (relativeIndex buf.length stop)).drop (relativeIndex buf.length start)

/-- `buf[index]` -/
def byteAt (buf : List UInt8) (index : ℤ) : Option UInt8 := if index < 0 then none else buf[index.toNat]?

def readIntBE (width : ℕ) (buf : List UInt8) (offset : ℤ) : Except ParseError ℤ :=
  (readInt width buf offset).elim (.error .outOfRange) .ok

structure Parser where
  buffer : List UInt8 := []
  offset : ℤ := 0
  headerParsed : Bool := false
  /-- Fields left in the current tuple; 0 before a tuple. -/
  fieldsRemaining : ℤ := 0
  deriving DecidableEq

namespace Parser

def remaining (p : Parser) : ℤ := p.buffer.length - p.offset

def append (p : Parser) (chunk : List UInt8) : Parser :=
  if p.buffer.length = p.offset then { p with buffer := chunk, offset := 0 }
  else { p with buffer := subarray p.buffer p.offset p.buffer.length ++ chunk, offset := 0 }

def compact (p : Parser) : Parser :=
  if p.offset > 0 then { p with buffer := subarray p.buffer p.offset p.buffer.length, offset := 0 } else p

def tryParseHeader (p : Parser) : Except ParseError (Bool × Parser) :=
  if p.remaining < HEADER_MIN_SIZE then .ok (false, p)
  else if PGCOPY_SIGNATURE.zipIdx.any (fun b => byteAt p.buffer (p.offset + b.2) ≠ some b.1) then .error .invalidSignature
  else do
    let flags ← readIntBE 4 p.buffer (p.offset + 11)
    if flags ≠ 0 then .error (.unsupportedFlags flags)
    else
      let extensionLen ← readIntBE 4 p.buffer (p.offset + 11 + 4)
      let q := { p with offset := p.offset + 11 + 4 + 4 }
      if extensionLen > 0 then
        if q.remaining < extensionLen then .ok (false, { q with offset := q.offset - HEADER_MIN_SIZE })
        else .ok (true, { q with offset := q.offset + extensionLen, headerParsed := true })
      else .ok (true, { q with headerParsed := true })

/-- What one round of the loops of `parse` does. -/
inductive Round
  | yield (field : Field) (next : Parser)
  | continue (next : Parser)
  | stop (last : Parser)
  | fail (error : ParseError)

/-- The head of the outer loop: the number of fields of the next tuple. -/
def readCount (p : Parser) : Round :=
  if p.remaining < 2 then .stop p.compact
  else match readIntBE 2 p.buffer p.offset with
    | .error error => .fail error
    | .ok fieldCount =>
      if fieldCount = -1 then .stop p.compact
      else .continue { p with offset := p.offset + 2, fieldsRemaining := fieldCount }

/-- The body of the inner loop: one field. -/
def readField (p : Parser) : Round :=
  if p.remaining < 4 then .stop p.compact
  else match readIntBE 4 p.buffer p.offset with
    | .error error => .fail error
    | .ok fieldLen =>
      let q := { p with offset := p.offset + 4 }
      if fieldLen = -1 then .yield none { q with fieldsRemaining := q.fieldsRemaining - 1 }
      else if q.remaining < fieldLen then .stop { q with offset := q.offset - 4 }.compact
      else
        .yield (some (subarray q.buffer q.offset (q.offset + fieldLen)))
          { q with offset := q.offset + fieldLen, fieldsRemaining := q.fieldsRemaining - 1 }

def round (p : Parser) : Round :=
  if p.fieldsRemaining > 0 then p.readField
  else if p.fieldsRemaining = 0 then p.readCount
  -- neither loop has anything to do, and the outer one has no other end
  else .continue p

/-- The rounds of one call: the fields that it yields, and the parser it leaves or the
error it throws; `none` if it takes more rounds than allowed. -/
def loop : ℕ → Parser → Option (List Field × Except ParseError Parser)
  | 0, _ => none
  | fuel + 1, p =>
    match p.round with
    | .yield field next => (loop fuel next).map fun result => (field :: result.1, result.2)
    | .continue next => loop fuel next
    | .stop last => some ([], .ok last)
    | .fail error => some ([], .error error)

def parse (fuel : ℕ) (p : Parser) (chunk : List UInt8) : Option (List Field × Except ParseError Parser) :=
  let p := p.append chunk
  if p.headerParsed then loop fuel p
  else match p.tryParseHeader with
    | .error error => some ([], .error error)
    | .ok (false, p) => some ([], .ok p)
    | .ok (true, p) => loop fuel p

/-- The calls for the chunks of a stream, up to the first one that throws. -/
def parseChunks (fuel : ℕ) : Parser → List (List UInt8) → Option (List Field × Except ParseError Parser)
  | p, [] => some ([], .ok p)
  | p, chunk :: chunks =>
    match parse fuel p chunk with
    | none => none
    | some (fields, .error error) => some (fields, .error error)
    | some (fields, .ok next) => (parseChunks fuel next chunks).map fun result => (fields ++ result.1, result.2)

end Parser

/-! ## A stream -/

/-- A number in the stream that no length or count can be. -/
inductive Malformed
  | count
  | length
  deriving DecidableEq

/-- What stands at the front of some bytes. -/
inductive Front
  | needMore
  | next (fields : List Field) (k : ℕ) (rest : List UInt8)
  | malformed (what : Malformed)

/-- The front of bytes that begin with a tuple. -/
def frontCount (bytes : List UInt8) : Front :=
  match readInt 2 bytes 0 with
  | none => .needMore
  | some fieldCount =>
    -- nothing is read after a trailer
    if fieldCount = -1 then .needMore
    else if fieldCount < -1 then .malformed .count
    else .next [] fieldCount.toNat (bytes.drop 2)

/-- The front of bytes that begin with a field, after which `k` are left. -/
def frontField (k : ℕ) (bytes : List UInt8) : Front :=
  match readInt 4 bytes 0 with
  | none => .needMore
  | some fieldLen =>
    if fieldLen = -1 then .next [none] k (bytes.drop 4)
    else if fieldLen < -1 then .malformed .length
    else if (bytes.drop 4).length < fieldLen.toNat then .needMore
    else .next [some ((bytes.drop 4).take fieldLen.toNat)] k ((bytes.drop 4).drop fieldLen.toNat)

def front : ℕ → List UInt8 → Front
  | 0, bytes => frontCount bytes
  | k + 1, bytes => frontField k bytes

theorem readInt_bound {width : ℕ} {bytes : List UInt8} {z : ℤ} (h : readInt width bytes 0 = some z) :
    width ≤ bytes.length := by
  unfold readInt readUInt at h
  by_contra hshort
  rw [if_neg (by omega)] at h
  cases h

theorem front_shrinks {k : ℕ} {bytes : List UInt8} {fields : List Field} {n : ℕ} {rest : List UInt8}
    (h : front k bytes = .next fields n rest) : rest.length < bytes.length := by
  cases k with
  | zero =>
    rw [front, frontCount] at h
    split at h
    · cases h
    · rename_i hread
      have hbound := readInt_bound hread
      split_ifs at h
      cases h
      rw [List.length_drop]
      omega
  | succ k =>
    rw [front, frontField] at h
    split at h
    · cases h
    · rename_i hread
      have hbound := readInt_bound hread
      split_ifs at h <;> cases h <;> simp only [List.length_drop] <;> omega

theorem front_append {k : ℕ} {bytes : List UInt8} (more : List UInt8) :
    (∀ fields n rest, front k bytes = .next fields n rest → front k (bytes ++ more) = .next fields n (rest ++ more)) ∧
      ∀ what, front k bytes = .malformed what → front k (bytes ++ more) = .malformed what := by
  cases k with
  | zero =>
    simp only [front]
    unfold frontCount
    cases hread : readInt 2 bytes 0 with
    | none => simp
    | some fieldCount =>
      have hbound := readInt_bound hread
      rw [readInt_append_right (by omega) more, hread, List.drop_append_of_le_length hbound]
      refine ⟨fun fields n rest h => ?_, fun what h => ?_⟩ <;> dsimp only at h ⊢ <;> split_ifs at h ⊢ <;> cases h <;> rfl
  | succ k =>
    simp only [front]
    unfold frontField
    cases hread : readInt 4 bytes 0 with
    | none => simp
    | some fieldLen =>
      have hbound := readInt_bound hread
      rw [readInt_append_right (by omega) more, hread, List.drop_append_of_le_length hbound]
      dsimp only
      by_cases hnull : fieldLen = -1
      · rw [if_pos hnull, if_pos hnull]
        exact ⟨fun fields n rest h => (by cases h; rfl), fun what h => (by cases h)⟩
      by_cases hbad : fieldLen < -1
      · rw [if_neg hnull, if_neg hnull, if_pos hbad, if_pos hbad]
        exact ⟨fun fields n rest h => (by cases h), fun what h => h⟩
      rw [if_neg hnull, if_neg hnull, if_neg hbad, if_neg hbad]
      by_cases hshort : (bytes.drop 4).length < fieldLen.toNat
      · rw [if_pos hshort]
        exact ⟨fun fields n rest h => (by cases h), fun what h => (by cases h)⟩
      · have hlong : ¬(bytes.drop 4 ++ more).length < fieldLen.toNat := by
          rw [List.length_append]
          omega
        rw [if_neg hshort, if_neg hlong, List.take_append_of_le_length (by omega), List.drop_append_of_le_length (by omega)]
        exact ⟨fun fields n rest h => (by cases h; rfl), fun what h => (by cases h)⟩

/-- Where the reading of a stream stands: the bytes that are left, of the header or where
`k` fields of a tuple are left. -/
inductive Progress
  | header (bytes : List UInt8)
  | body (k : ℕ) (rest : List UInt8)
  deriving DecidableEq

/-- How the reading of some bytes ends. -/
inductive Reading
  | stopped (progress : Progress)
  | failed (error : ParseError)
  | malformed (what : Malformed)
  deriving DecidableEq

/-- All that can be read of some bytes. -/
def scan (k : ℕ) (bytes : List UInt8) : List Field × Reading :=
  match _h : front k bytes with
  | .needMore => ([], .stopped (.body k bytes))
  | .malformed what => ([], .malformed what)
  | .next fields n rest => (fields ++ (scan n rest).1, (scan n rest).2)
termination_by bytes.length
decreasing_by exact front_shrinks _h

theorem scan_needMore {k : ℕ} {bytes : List UInt8} (h : front k bytes = .needMore) :
    scan k bytes = ([], .stopped (.body k bytes)) := by
  rw [scan]
  split <;> simp_all

theorem scan_malformed {k : ℕ} {bytes : List UInt8} {what : Malformed} (h : front k bytes = .malformed what) :
    scan k bytes = ([], .malformed what) := by
  rw [scan]
  split <;> simp_all

theorem scan_next {k n : ℕ} {bytes rest : List UInt8} {fields : List Field} (h : front k bytes = .next fields n rest) :
    scan k bytes = (fields ++ (scan n rest).1, (scan n rest).2) := by
  rw [scan]
  split <;> simp_all

/-- What stands at the front of a stream. -/
inductive HeaderFront
  | needMore
  | failed (error : ParseError)
  | body (rest : List UInt8)

/-- The extension counts as empty where its length is negative. -/
def frontHeader (bytes : List UInt8) : HeaderFront :=
  match readInt 4 bytes 11, readInt 4 bytes 15 with
  | some flags, some extensionLen =>
    if bytes.take 11 ≠ PGCOPY_SIGNATURE then .failed .invalidSignature
    else if flags ≠ 0 then .failed (.unsupportedFlags flags)
    else if (bytes.drop 19).length < extensionLen.toNat then .needMore
    else .body ((bytes.drop 19).drop extensionLen.toNat)
  | _, _ => .needMore

/-- The reading of more bytes. -/
def feed : Progress → List UInt8 → List Field × Reading
  | .header bytes, more =>
    match frontHeader (bytes ++ more) with
    | .needMore => ([], .stopped (.header (bytes ++ more)))
    | .failed error => ([], .failed error)
    | .body rest => scan 0 rest
  | .body k rest, more => scan k (rest ++ more)

/-- The reading of all of a stream. -/
def read (bytes : List UInt8) : List Field × Reading := feed (.header []) bytes

def andThen (first : List Field × Reading) (next : Progress → List Field × Reading) : List Field × Reading :=
  match first with
  | (fields, .stopped progress) => (fields ++ (next progress).1, (next progress).2)
  | (fields, .failed error) => (fields, .failed error)
  | (fields, .malformed what) => (fields, .malformed what)

theorem scan_append (k : ℕ) (bytes more : List UInt8) :
    scan k (bytes ++ more) = andThen (scan k bytes) fun progress => feed progress more := by
  induction k, bytes using scan.induct with
  | case1 k bytes h => rw [scan_needMore h]; rfl
  | case2 k bytes what h => rw [scan_malformed h, scan_malformed ((front_append more).2 what h)]; rfl
  | case3 k bytes fields n rest h ih =>
    rw [scan_next h, scan_next ((front_append more).1 fields n rest h), ih]
    rcases scan n rest with ⟨later, progress | error | what⟩ <;> simp [andThen]

theorem frontHeader_append {bytes : List UInt8} (more : List UInt8) :
    (∀ error, frontHeader bytes = .failed error → frontHeader (bytes ++ more) = .failed error) ∧
      ∀ rest, frontHeader bytes = .body rest → frontHeader (bytes ++ more) = .body (rest ++ more) := by
  unfold frontHeader
  by_cases hlength : 19 ≤ bytes.length
  · rw [readInt_append_right (by omega) more, readInt_append_right (by omega) more, List.take_append_of_le_length (by omega),
      List.drop_append_of_le_length (by omega)]
    rcases readInt 4 bytes 11 with _ | flags
    · simp
    rcases readInt 4 bytes 15 with _ | extensionLen
    · simp
    dsimp only
    by_cases hsignature : bytes.take 11 ≠ PGCOPY_SIGNATURE
    · simp [hsignature]
    by_cases hflags : flags ≠ 0
    · simp [hsignature, hflags]
    by_cases hshort : (bytes.drop 19).length < extensionLen.toNat
    · rw [if_neg hsignature, if_neg hflags, if_pos hshort]
      exact ⟨fun error h => (by cases h), fun rest h => (by cases h)⟩
    · have hlong : ¬(bytes.drop 19 ++ more).length < extensionLen.toNat := by
        rw [List.length_append]
        omega
      rw [if_neg hsignature, if_neg hsignature, if_neg hflags, if_neg hflags, if_neg hshort, if_neg hlong,
        List.drop_append_of_le_length (by omega)]
      exact ⟨fun error h => (by cases h), fun rest h => (by cases h; rfl)⟩
  · have hread : readInt 4 bytes 15 = none := by
      unfold readInt readUInt
      rw [if_neg (by omega)]
      rfl
    rw [hread]
    cases readInt 4 bytes 11 <;> simp

/-- **The division of a stream does not matter**: to read more bytes is to read some of
them, and then the others. -/
theorem feed_append (progress : Progress) (bytes more : List UInt8) :
    feed progress (bytes ++ more) = andThen (feed progress bytes) fun progress => feed progress more := by
  cases progress with
  | body k rest => rw [feed, ← List.append_assoc, scan_append]; rfl
  | header front =>
    simp only [feed, ← List.append_assoc]
    cases h : frontHeader (front ++ bytes) with
    | needMore => rfl
    | failed error => rw [(frontHeader_append more).1 error h]; rfl
    | body rest => rw [(frontHeader_append more).2 rest h]; exact scan_append 0 rest more

theorem feed_nil {progress next : Progress} {bytes : List UInt8} {fields : List Field}
    (h : feed progress bytes = (fields, .stopped next)) : feed next [] = ([], .stopped next) := by
  have happend := feed_append progress bytes []
  rw [List.append_nil, h] at happend
  obtain ⟨hfields, hreading⟩ := Prod.mk.inj happend
  have hnil : (feed next []).1 = [] := List.append_right_eq_self.1 hfields.symm
  exact Prod.ext hnil hreading.symm

end ZeroSync.BinaryCopy
