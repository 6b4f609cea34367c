/-
What `BinaryCopyParser` makes of a stream, however it is divided into chunks
(`parseChunks_meets`): the fields and the error that the reading of the whole stream
gives, unless a number of fields or a length below -1 stands in it. With such a number
of fields the calls do not end (`parseChunks_endsAs_iff`). A copy as Postgres writes it is read
back (`read_encode`).
-/
import ZeroSync.BinaryCopyParser

namespace ZeroSync.BinaryCopy

open BigEndian

namespace Parser

/-- The parser after the header, with `done` used of its buffer. -/
def standing (used : List UInt8) (k : ℕ) (rest : List UInt8) : Parser where
  buffer := used ++ rest
  offset := used.length
  headerParsed := true
  fieldsRemaining := k

/-- The parser stands where the reading of the stream does. -/
def At (p : Parser) : Progress → Prop
  | .header bytes => p = { buffer := bytes }
  | .body k rest => ∃ used, p = standing used k rest

/-! ## The buffer -/

theorem subarray_rest (used rest : List UInt8) (n : ℕ) :
    subarray (used ++ rest) used.length (used.length + n) = rest.take n := by
  have hstart : relativeIndex (used ++ rest).length used.length = used.length := by
    unfold relativeIndex
    rw [if_neg (by omega), List.length_append]
    omega
  have hstop : relativeIndex (used ++ rest).length (used.length + n) = used.length + min n rest.length := by
    unfold relativeIndex
    rw [if_neg (by omega), List.length_append]
    omega
  rw [subarray, hstart, hstop, List.take_length_add_append, List.drop_left]
  by_cases hn : n ≤ rest.length
  · rw [Nat.min_eq_left hn]
  · rw [Nat.min_eq_right (by omega), List.take_length, List.take_of_length_le (by omega)]

theorem subarray_to_end (used rest : List UInt8) :
    subarray (used ++ rest) used.length (used ++ rest).length = rest := by
  have h := subarray_rest used rest rest.length
  rwa [List.take_length, ← Nat.cast_add, ← List.length_append] at h

theorem remaining_standing (used : List UInt8) (k : ℕ) (rest : List UInt8) :
    (standing used k rest).remaining = rest.length := by
  simp only [remaining, standing, List.length_append]
  omega

theorem standing_advance (used : List UInt8) (k : ℕ) {rest : List UInt8} {n : ℕ} (hn : n ≤ rest.length) :
    standing (used ++ rest.take n) k (rest.drop n)
      = { buffer := used ++ rest, offset := used.length + n, headerParsed := true, fieldsRemaining := k } := by
  simp only [standing, List.append_assoc, List.take_append_drop, List.length_append, List.length_take_of_le hn, Nat.cast_add]

theorem compact_standing (used : List UInt8) (k : ℕ) (rest : List UInt8) :
    (standing used k rest).compact = standing [] k rest := by
  unfold compact
  split
  · simp only [standing, subarray_to_end, List.nil_append, List.length_nil, Nat.cast_zero]
  · rename_i h
    have hused : used = [] := List.length_eq_zero_iff.1 (by simp only [standing] at h; omega)
    rw [hused]

theorem append_standing (used : List UInt8) (k : ℕ) (rest chunk : List UInt8) :
    (standing used k rest).append chunk = standing [] k (rest ++ chunk) := by
  unfold append
  split
  · rename_i h
    have hrest : rest = [] := List.length_eq_zero_iff.1 (by simp only [standing, List.length_append] at h; omega)
    rw [hrest]
    rfl
  · simp only [standing, subarray_to_end, List.nil_append, List.length_nil, Nat.cast_zero]

theorem append_header (bytes chunk : List UInt8) :
    ({ buffer := bytes } : Parser).append chunk = { buffer := bytes ++ chunk } := by
  unfold append
  split
  · rename_i h
    have hbytes : bytes = [] := List.length_eq_zero_iff.1 (by dsimp only at h; omega)
    rw [hbytes]
    rfl
  · have hall := subarray_to_end [] bytes
    simp only [List.nil_append, List.length_nil, Nat.cast_zero] at hall
    simp only [hall]

theorem readIntBE_rest (width : ℕ) (used rest : List UInt8) :
    readIntBE width (used ++ rest) used.length = (readInt width rest 0).elim (.error .outOfRange) .ok := by
  have h := @readInt_drop width (used ++ rest) used.length (by rw [List.length_append]; omega) 0 le_rfl
  rw [List.drop_left, add_zero] at h
  rw [readIntBE, h]

/-! ## One round -/

theorem readInt_isSome {width : ℕ} {bytes : List UInt8} (h : width ≤ bytes.length) : ∃ z, readInt width bytes 0 = some z := by
  unfold readInt readUInt
  rw [if_pos (by omega)]
  exact ⟨_, rfl⟩

theorem readInt_short {width : ℕ} {bytes : List UInt8} (h : bytes.length < width) : readInt width bytes 0 = none := by
  unfold readInt readUInt
  rw [if_neg (by omega)]
  rfl

/-- What a round does where the front of the stream is as given. -/
def RoundMeets (p : Parser) (k : ℕ) (rest : List UInt8) : Front → Prop
  | .needMore => p.round = .stop (standing [] k rest)
  | .next fields n left =>
    ∃ used, fields = [] ∧ p.round = .continue (standing used n left) ∨
      ∃ field, fields = [field] ∧ p.round = .yield field (standing used n left)
  | .malformed .count => ∃ q, p.round = .continue q ∧ q.fieldsRemaining < 0
  | .malformed .length => True

theorem round_standing_zero (used rest : List UInt8) : RoundMeets (standing used 0 rest) 0 rest (front 0 rest) := by
  have hround : (standing used 0 rest).round = (standing used 0 rest).readCount := by
    simp [round, standing]
  simp only [front]
  unfold frontCount
  by_cases hshort : rest.length < 2
  · rw [readInt_short hshort]
    rw [RoundMeets, hround, readCount, remaining_standing, if_pos (by omega), compact_standing]
  obtain ⟨fieldCount, hread⟩ := readInt_isSome (by omega : 2 ≤ rest.length)
  have hreadBE : readIntBE 2 (standing used 0 rest).buffer (standing used 0 rest).offset = .ok fieldCount := by
    simp only [standing, readIntBE_rest, hread, Option.elim_some]
  rw [readCount, remaining_standing, if_neg (by omega), hreadBE] at hround
  simp only [hread]
  by_cases htrailer : fieldCount = -1
  · simp only [htrailer, ↓reduceIte, compact_standing] at hround ⊢
    exact hround
  simp only [htrailer, ↓reduceIte] at hround ⊢
  by_cases hbad : fieldCount < -1
  · rw [if_pos hbad]
    exact ⟨_, hround, by dsimp only; omega⟩
  · rw [if_neg hbad]
    have hcount : (fieldCount.toNat : ℤ) = fieldCount := Int.toNat_of_nonneg (by omega)
    refine ⟨used ++ rest.take 2, .inl ⟨rfl, hround.trans ?_⟩⟩
    rw [standing_advance used _ (by omega), hcount]
    rfl

theorem round_standing_succ (used : List UInt8) (k : ℕ) (rest : List UInt8) :
    RoundMeets (standing used (k + 1) rest) (k + 1) rest (front (k + 1) rest) := by
  have hround : (standing used (k + 1) rest).round = (standing used (k + 1) rest).readField := by
    simp only [round, standing, Nat.cast_add, Nat.cast_one]
    exact if_pos (by omega)
  have hcount : ((k + 1 : ℕ) : ℤ) - 1 = k := by omega
  simp only [front]
  unfold frontField
  by_cases hshort : rest.length < 4
  · rw [readInt_short hshort]
    rw [RoundMeets, hround, readField, remaining_standing, if_pos (by omega), compact_standing]
  obtain ⟨fieldLen, hread⟩ := readInt_isSome (by omega : 4 ≤ rest.length)
  have hreadBE : readIntBE 4 (standing used (k + 1) rest).buffer (standing used (k + 1) rest).offset = .ok fieldLen := by
    simp only [standing, readIntBE_rest, hread, Option.elim_some]
  rw [readField, remaining_standing, if_neg (by omega), hreadBE] at hround
  have hremaining : ({ buffer := used ++ rest, offset := used.length + 4, headerParsed := true, fieldsRemaining := (k + 1 : ℕ) } :
      Parser).remaining = (rest.drop 4).length := by
    simp only [remaining, List.length_append, List.length_drop]
    omega
  simp only [standing, hcount, hremaining] at hround
  simp only [hread]
  by_cases hnull : fieldLen = -1
  · simp only [hnull, ↓reduceIte] at hround ⊢
    refine ⟨used ++ rest.take 4, .inr ⟨none, rfl, ?_⟩⟩
    rw [standing_advance used k (by omega)]
    exact hround
  simp only [hnull, ↓reduceIte] at hround ⊢
  by_cases hbad : fieldLen < -1
  · rw [if_pos hbad]
    trivial
  rw [if_neg hbad]
  have hlength : (fieldLen.toNat : ℤ) = fieldLen := Int.toNat_of_nonneg (by omega)
  by_cases hwait : (rest.drop 4).length < fieldLen.toNat
  · rw [if_pos hwait]
    rw [if_pos (by omega), add_sub_cancel_right] at hround
    exact hround.trans (congrArg Round.stop (compact_standing used (k + 1) rest))
  · rw [if_neg hwait]
    rw [if_neg (by omega)] at hround
    have hlong : 4 + fieldLen.toNat ≤ rest.length := by
      rw [List.length_drop] at hwait
      omega
    have hfield := subarray_rest (used ++ rest.take 4) (rest.drop 4) fieldLen.toNat
    rw [hlength, List.append_assoc, List.take_append_drop, List.length_append, List.length_take_of_le (by omega), Nat.cast_add]
      at hfield
    refine ⟨used ++ rest.take (4 + fieldLen.toNat), .inr ⟨_, rfl, hround.trans ?_⟩⟩
    rw [List.drop_drop, standing_advance used k hlong, Nat.cast_add, hlength, ← add_assoc]
    exact congrArg (fun field => Round.yield (some field) _) hfield

theorem round_standing (used : List UInt8) (k : ℕ) (rest : List UInt8) :
    RoundMeets (standing used k rest) k rest (front k rest) := by
  cases k with
  | zero => exact round_standing_zero used rest
  | succ k => exact round_standing_succ used k rest

/-! ## A call -/

/-- The run takes so much fuel, and then it ends so. -/
def Takes (fuel : ℕ) (run : ℕ → Option (List Field × Except ParseError Parser))
    (result : List Field × Except ParseError Parser) : Prop :=
  ∀ more, run more = if fuel ≤ more then some result else none

/-- What a run does where the reading of the stream is as given. -/
def Meets (run : ℕ → Option (List Field × Except ParseError Parser)) : List Field × Reading → Prop
  | (fields, .stopped progress) => ∃ p : Parser, p.At progress ∧ ∃ fuel, Takes fuel run (fields, .ok p)
  | (fields, .failed error) => ∃ fuel, Takes fuel run (fields, .error error)
  | (_, .malformed .count) => ∀ fuel, run fuel = none
  | (_, .malformed .length) => True

theorem takes_zero (result : List Field × Except ParseError Parser) : Takes 0 (fun _ => some result) result :=
  fun more => (if_pos (Nat.zero_le more)).symm

theorem Meets.later {run first : ℕ → Option (List Field × Except ParseError Parser)} {before : List Field}
    {result : List Field × Reading} (h : Meets run result) (hzero : first 0 = none)
    (hstep : ∀ fuel, first (fuel + 1) = (run fuel).map fun result => (before ++ result.1, result.2)) :
    Meets first (before ++ result.1, result.2) := by
  have htakes : ∀ fuel fields outcome, Takes fuel run (fields, outcome) →
      Takes (fuel + 1) first (before ++ fields, outcome) := by
    intro fuel fields outcome hrun more
    cases more with
    | zero => rw [hzero, if_neg (by omega)]
    | succ more =>
      rw [hstep, hrun more]
      by_cases hle : fuel ≤ more
      · rw [if_pos hle, if_pos (by omega)]
        rfl
      · rw [if_neg hle, if_neg (by omega)]
        rfl
  rcases result with ⟨fields, progress | error | what⟩
  · obtain ⟨p, hat, fuel, hrun⟩ := h
    exact ⟨p, hat, fuel + 1, htakes fuel fields _ hrun⟩
  · obtain ⟨fuel, hrun⟩ := h
    exact ⟨fuel + 1, htakes fuel fields _ hrun⟩
  · cases what with
    | length => trivial
    | count =>
      intro fuel
      cases fuel with
      | zero => exact hzero
      | succ fuel => rw [hstep, h fuel]; rfl

theorem loop_negative {p : Parser} (h : p.fieldsRemaining < 0) (fuel : ℕ) : loop fuel p = none := by
  have hround : p.round = .continue p := by
    rw [round, if_neg (by omega), if_neg (by omega)]
  induction fuel with
  | zero => rfl
  | succ fuel ih => rw [loop, hround]; exact ih

theorem loop_meets (used : List UInt8) (k : ℕ) (rest : List UInt8) :
    Meets (fun fuel => loop fuel (standing used k rest)) (scan k rest) := by
  induction k, rest using scan.induct generalizing used with
  | case1 k rest h =>
    have hround := round_standing used k rest
    rw [h, RoundMeets] at hround
    rw [scan_needMore h]
    refine ⟨standing [] k rest, ⟨[], rfl⟩, 1, fun more => ?_⟩
    cases more with
    | zero => rfl
    | succ more => simp only [loop, hround, Nat.le_add_left, ↓reduceIte]
  | case2 k rest what h =>
    have hround := round_standing used k rest
    rw [h] at hround
    rw [scan_malformed h]
    cases what with
    | length => trivial
    | count =>
      obtain ⟨q, hround, hnegative⟩ := hround
      intro fuel
      cases fuel with
      | zero => rfl
      | succ fuel => simp only [loop, hround, loop_negative hnegative]
  | case3 k rest fields n left h ih =>
    have hround := round_standing used k rest
    rw [h] at hround
    rw [scan_next h]
    obtain ⟨used', ⟨rfl, hround⟩ | ⟨field, rfl, hround⟩⟩ := hround
    · refine (ih used').later rfl fun fuel => ?_
      simp only [loop, hround, List.nil_append]
      exact Option.map_id'.symm
    · refine (ih used').later rfl fun fuel => ?_
      simp only [loop, hround, List.singleton_append]

/-! ## The header -/

theorem signature_iff (bytes : List UInt8) :
    (PGCOPY_SIGNATURE.zipIdx.any fun b => byteAt bytes (0 + b.2) ≠ some b.1) = true ↔ bytes.take 11 ≠ PGCOPY_SIGNATURE := by
  have hbyte : ∀ i : ℕ, byteAt bytes (0 + i) = bytes[i]? := by
    intro i
    rw [byteAt, if_neg (by omega), zero_add, Int.toNat_natCast]
  have hall : bytes.take 11 = PGCOPY_SIGNATURE ↔ ∀ b ∈ PGCOPY_SIGNATURE.zipIdx, byteAt bytes (0 + b.2) = some b.1 := by
    simp only [hbyte, Prod.forall, List.mk_mem_zipIdx_iff_getElem?]
    constructor
    · intro heq b i hb
      rw [← heq, List.getElem?_take] at hb
      split at hb
      · exact hb
      · cases hb
    · intro hall
      refine List.ext_getElem? fun i => ?_
      rw [List.getElem?_take]
      split
      · rename_i hi
        obtain ⟨b, hb⟩ : ∃ b, PGCOPY_SIGNATURE[i]? = some b := ⟨_, List.getElem?_eq_getElem hi⟩
        rw [hb, hall b i hb]
      · rename_i hi
        exact (List.getElem?_eq_none (Nat.le_of_not_lt hi)).symm
  simp only [hall, List.any_eq_true, decide_eq_true_eq, ne_eq, not_forall, exists_prop]

/-- What `tryParseHeader` does where the front of the stream is as given. -/
def HeaderMeets (bytes : List UInt8) : HeaderFront → Prop
  | .needMore => tryParseHeader { buffer := bytes } = .ok (false, { buffer := bytes })
  | .failed error => tryParseHeader { buffer := bytes } = .error error
  | .body rest => ∃ used, tryParseHeader { buffer := bytes } = .ok (true, standing used 0 rest)

theorem tryParseHeader_meets (bytes : List UInt8) : HeaderMeets bytes (frontHeader bytes) := by
  unfold frontHeader
  by_cases hshort : bytes.length < 19
  · have hread : readInt 4 bytes 15 = none := by
      unfold readInt readUInt
      rw [if_neg (by omega)]
      rfl
    have hwait : tryParseHeader { buffer := bytes } = .ok (false, { buffer := bytes }) := by
      unfold tryParseHeader remaining HEADER_MIN_SIZE
      rw [if_pos (by dsimp only; omega)]
    rw [hread]
    cases readInt 4 bytes 11 <;> exact hwait
  · have hreads : ∀ offset : ℤ, 0 ≤ offset → offset + 4 ≤ 19 → ∃ z, readInt 4 bytes offset = some z := by
      intro offset hlow hhigh
      unfold readInt readUInt
      rw [if_pos (by omega)]
      exact ⟨_, rfl⟩
    obtain ⟨flags, hflags⟩ := hreads 11 (by omega) (by omega)
    obtain ⟨extensionLen, hextension⟩ := hreads 15 (by omega) (by omega)
    have hhead : tryParseHeader { buffer := bytes } =
        if bytes.take 11 ≠ PGCOPY_SIGNATURE then .error .invalidSignature
        else if flags ≠ 0 then .error (.unsupportedFlags flags)
        else if extensionLen > 0 then
          if (bytes.drop 19).length < extensionLen then .ok (false, { buffer := bytes })
          else .ok (true, { buffer := bytes, offset := 19 + extensionLen, headerParsed := true })
        else .ok (true, { buffer := bytes, offset := 19, headerParsed := true }) := by
      have hflagsBE : readIntBE 4 bytes (0 + 11) = .ok flags := by rw [readIntBE, zero_add, hflags]; rfl
      have hextensionBE : readIntBE 4 bytes (0 + 11 + 4) = .ok extensionLen := by
        rw [readIntBE, show (0 + 11 + 4 : ℤ) = 15 from rfl, hextension]; rfl
      have hdrop : ((bytes.drop 19).length : ℤ) = bytes.length - (0 + 11 + 4 + 4) := by
        rw [List.length_drop]
        omega
      unfold tryParseHeader remaining HEADER_MIN_SIZE
      rw [if_neg (by dsimp only; omega)]
      simp only [signature_iff, hflagsBE, hextensionBE, hdrop]
      rfl
    simp only [hflags, hextension]
    by_cases hsignature : bytes.take 11 ≠ PGCOPY_SIGNATURE
    · rw [if_pos hsignature] at hhead ⊢
      exact hhead
    by_cases hzero : flags ≠ 0
    · rw [if_neg hsignature, if_pos hzero] at hhead ⊢
      exact hhead
    rw [if_neg hsignature, if_neg hzero] at hhead ⊢
    by_cases hpos : extensionLen > 0
    · rw [if_pos hpos] at hhead
      have hlength : (extensionLen.toNat : ℤ) = extensionLen := Int.toNat_of_nonneg (by omega)
      by_cases hwait : (bytes.drop 19).length < extensionLen.toNat
      · rw [if_pos (by omega)] at hhead
        rw [if_pos hwait]
        exact hhead
      · rw [if_neg (by omega)] at hhead
        rw [if_neg hwait]
        refine ⟨bytes.take (19 + extensionLen.toNat), hhead.trans ?_⟩
        have hadvance := @standing_advance [] 0 bytes (19 + extensionLen.toNat) (by rw [List.length_drop] at hwait; omega)
        rw [List.drop_drop, ← List.nil_append (bytes.take _), hadvance, Nat.cast_add, hlength]
        simp
    · rw [if_neg hpos] at hhead
      rw [show extensionLen.toNat = 0 by omega, if_neg (by omega), List.drop_zero]
      refine ⟨bytes.take 19, hhead.trans ?_⟩
      have hadvance := @standing_advance [] 0 bytes 19 (by omega)
      rw [← List.nil_append (bytes.take _), hadvance]
      simp

/-! ## A stream -/

theorem parse_meets {p : Parser} {progress : Progress} (hat : p.At progress) (chunk : List UInt8) :
    Meets (fun fuel => parse fuel p chunk) (feed progress chunk) := by
  cases progress with
  | body k rest =>
    obtain ⟨used, rfl⟩ := hat
    have hparse : ∀ fuel, parse fuel (standing used k rest) chunk = loop fuel (standing [] k (rest ++ chunk)) := by
      intro fuel
      rw [parse, append_standing]
      rfl
    simp only [hparse]
    exact loop_meets [] k (rest ++ chunk)
  | header bytes =>
    cases hat
    have hheader := tryParseHeader_meets (bytes ++ chunk)
    simp only [parse, append_header, Bool.false_eq_true, if_false, feed]
    cases h : frontHeader (bytes ++ chunk) with
    | needMore =>
      rw [h, HeaderMeets] at hheader
      rw [hheader]
      exact ⟨_, rfl, 0, takes_zero _⟩
    | failed error =>
      rw [h, HeaderMeets] at hheader
      rw [hheader]
      exact ⟨0, takes_zero _⟩
    | body rest =>
      rw [h] at hheader
      obtain ⟨used, hheader⟩ := hheader
      rw [hheader]
      exact loop_meets used 0 rest

theorem parseChunks_meets (chunks : List (List UInt8)) {p : Parser} {progress : Progress} (hat : p.At progress)
    (hnil : feed progress [] = ([], .stopped progress)) :
    Meets (fun fuel => parseChunks fuel p chunks) (feed progress chunks.flatten) := by
  induction chunks generalizing p progress with
  | nil =>
    rw [List.flatten_nil, hnil]
    exact ⟨p, hat, 0, takes_zero _⟩
  | cons chunk chunks ih =>
    have hparse := parse_meets hat chunk
    rw [List.flatten_cons, feed_append]
    rcases hfeed : feed progress chunk with ⟨fields, next | error | what⟩
    · rw [hfeed] at hparse
      obtain ⟨q, hq, fuel, hrun⟩ := hparse
      have hchunks : ∀ more, parseChunks more p (chunk :: chunks) =
          if fuel ≤ more then (parseChunks more q chunks).map fun result => (fields ++ result.1, result.2) else none := by
        intro more
        simp only [parseChunks, hrun more]
        by_cases hle : fuel ≤ more
        · simp only [if_pos hle]
        · simp only [if_neg hle]
      have htakes : ∀ fuel' later outcome, Takes fuel' (fun more => parseChunks more q chunks) (later, outcome) →
          Takes (max fuel fuel') (fun more => parseChunks more p (chunk :: chunks)) (fields ++ later, outcome) := by
        intro fuel' later outcome hrun' more
        refine (hchunks more).trans ?_
        simp only [hrun' more]
        by_cases hle : fuel ≤ more
        · by_cases hle' : fuel' ≤ more
          · rw [if_pos hle, if_pos hle', if_pos (by omega)]
            rfl
          · rw [if_pos hle, if_neg hle', if_neg (by omega)]
            rfl
        · rw [if_neg hle, if_neg (by omega)]
      have hmeets := ih hq (feed_nil hfeed)
      simp only [andThen]
      rcases hlater : feed next chunks.flatten with ⟨later, last | error | what⟩
      · rw [hlater] at hmeets
        obtain ⟨r, hr, fuel', hrun'⟩ := hmeets
        exact ⟨r, hr, max fuel fuel', htakes fuel' later _ hrun'⟩
      · rw [hlater] at hmeets
        obtain ⟨fuel', hrun'⟩ := hmeets
        exact ⟨max fuel fuel', htakes fuel' later _ hrun'⟩
      · rw [hlater] at hmeets
        cases what with
        | length => trivial
        | count =>
          intro more
          refine (hchunks more).trans ?_
          simp only [hmeets more]
          split <;> rfl
    · rw [hfeed] at hparse
      obtain ⟨fuel, hrun⟩ := hparse
      refine ⟨fuel, fun more => ?_⟩
      simp only [parseChunks, hrun more]
      by_cases hle : fuel ≤ more
      · simp only [if_pos hle]
      · simp only [if_neg hle]
    · rw [hfeed] at hparse
      cases what with
      | length => trivial
      | count =>
        intro fuel
        simp only [parseChunks, hparse fuel]

theorem parseChunks_meets_read (chunks : List (List UInt8)) :
    Meets (fun fuel => parseChunks fuel {} chunks) (read chunks.flatten) :=
  @parseChunks_meets chunks {} (.header []) rfl rfl

end Parser

/-! ## A copy as it is written -/

structure Tuple where
  fields : List Field
  length_lt : fields.length < 2 ^ 15
  lengths_lt : ∀ bytes, some bytes ∈ fields → bytes.length < 2 ^ 31

structure Copy where
  extension : List UInt8
  extension_lt : extension.length < 2 ^ 31
  tuples : List Tuple

def encodeField : Field → List UInt8
  | none => encodeInt 4 (-1)
  | some bytes => encodeInt 4 bytes.length ++ bytes

def Tuple.encode (tuple : Tuple) : List UInt8 := encodeInt 2 tuple.fields.length ++ tuple.fields.flatMap encodeField

def Copy.encode (copy : Copy) : List UInt8 :=
  PGCOPY_SIGNATURE ++ encodeInt 4 0 ++ encodeInt 4 copy.extension.length ++ copy.extension ++
    copy.tuples.flatMap Tuple.encode ++ encodeInt 2 (-1)

def Copy.fields (copy : Copy) : List Field := copy.tuples.flatMap Tuple.fields

theorem readInt_encodeInt {width : ℕ} (hwidth : 0 < width) {z : ℤ} (hlow : -2 ^ (8 * width - 1) ≤ z)
    (hhigh : z < 2 ^ (8 * width - 1)) (rest : List UInt8) : readInt width (encodeInt width z ++ rest) 0 = some z :=
  readInt_append hwidth hlow hhigh [] rest rfl

theorem front_encodeField {k : ℕ} {field : Field} (h : ∀ bytes, field = some bytes → bytes.length < 2 ^ 31)
    (rest : List UInt8) : front (k + 1) (encodeField field ++ rest) = .next [field] k rest := by
  rw [front, frontField]
  cases field with
  | none => rw [encodeField, readInt_encodeInt (by omega) (by omega) (by omega), List.drop_left' (length_encodeInt _ _)]; rfl
  | some bytes =>
    have hlength := h bytes rfl
    have hwait : ¬(bytes ++ rest).length < bytes.length := by
      rw [List.length_append]
      omega
    rw [encodeField, List.append_assoc, readInt_encodeInt (by omega) (by omega) (by omega),
      List.drop_left' (length_encodeInt _ _)]
    simp only [Int.toNat_natCast]
    rw [if_neg (by omega), if_neg (by omega), if_neg hwait, List.take_left, List.drop_left]

theorem front_encodeCount {n : ℕ} (h : n < 2 ^ 15) (rest : List UInt8) :
    front 0 (encodeInt 2 n ++ rest) = .next [] n rest := by
  rw [front, frontCount, readInt_encodeInt (by omega) (by omega) (by omega), List.drop_left' (length_encodeInt _ _)]
  simp only [Int.toNat_natCast]
  rw [if_neg (by omega), if_neg (by omega)]

theorem scan_encodeFields {fields : List Field} (h : ∀ bytes, some bytes ∈ fields → bytes.length < 2 ^ 31)
    (rest : List UInt8) :
    scan fields.length (fields.flatMap encodeField ++ rest) = (fields ++ (scan 0 rest).1, (scan 0 rest).2) := by
  induction fields with
  | nil => rfl
  | cons field fields ih =>
    have hfront := @front_encodeField fields.length field (fun bytes hfield => h bytes (hfield ▸ List.mem_cons_self))
      (fields.flatMap encodeField ++ rest)
    rw [List.flatMap_cons, List.append_assoc, List.length_cons, scan_next hfront,
      ih fun bytes hmem => h bytes (List.mem_cons_of_mem _ hmem)]
    rfl

theorem scan_encodeTuples (tuples : List Tuple) (rest : List UInt8) :
    scan 0 (tuples.flatMap Tuple.encode ++ rest) = (tuples.flatMap Tuple.fields ++ (scan 0 rest).1, (scan 0 rest).2) := by
  induction tuples with
  | nil => rfl
  | cons tuple tuples ih =>
    rw [List.flatMap_cons, Tuple.encode, List.append_assoc, List.append_assoc, scan_next (front_encodeCount tuple.length_lt _),
      scan_encodeFields tuple.lengths_lt, ih, List.flatMap_cons, List.append_assoc, List.nil_append]

theorem frontHeader_encode {extension : List UInt8} (h : extension.length < 2 ^ 31) (rest : List UInt8) :
    frontHeader (PGCOPY_SIGNATURE ++ encodeInt 4 0 ++ encodeInt 4 extension.length ++ extension ++ rest) = .body rest := by
  have hflags : readInt 4 (PGCOPY_SIGNATURE ++ encodeInt 4 0 ++ (encodeInt 4 extension.length ++ (extension ++ rest))) 11
      = some 0 := readInt_append (by omega) (by omega) (by omega) _ _ rfl
  have hextension : readInt 4 (PGCOPY_SIGNATURE ++ encodeInt 4 0 ++ encodeInt 4 extension.length ++ (extension ++ rest)) 15
      = some (extension.length : ℤ) := readInt_append (by omega) (by omega) (by omega) _ _ (by simp; rfl)
  have htake : (PGCOPY_SIGNATURE ++ (encodeInt 4 0 ++ (encodeInt 4 extension.length ++ (extension ++ rest)))).take 11
      = PGCOPY_SIGNATURE := List.take_left' rfl
  have hdrop : (PGCOPY_SIGNATURE ++ encodeInt 4 0 ++ encodeInt 4 extension.length ++ (extension ++ rest)).drop 19
      = extension ++ rest := List.drop_left' (by simp; rfl)
  have hwait : ¬(extension ++ rest).length < extension.length := by
    rw [List.length_append]
    omega
  simp only [List.append_assoc] at hflags hextension htake hdrop ⊢
  rw [frontHeader, hflags, hextension, htake, hdrop]
  simp only [Int.toNat_natCast]
  rw [if_neg (by simp), if_neg (by simp), if_neg hwait, List.drop_left]

theorem scan_trailer : scan 0 (encodeInt 2 (-1)) = ([], .stopped (.body 0 (encodeInt 2 (-1)))) := by
  have hread : readInt 2 (encodeInt 2 (-1)) 0 = some (-1) := by decide
  refine scan_needMore ?_
  rw [front, frontCount, hread]
  rfl

theorem read_encode (copy : Copy) : read copy.encode = (copy.fields, .stopped (.body 0 (encodeInt 2 (-1)))) := by
  have hheader := frontHeader_encode copy.extension_lt (copy.tuples.flatMap Tuple.encode ++ encodeInt 2 (-1))
  rw [read, feed, List.nil_append, Copy.encode, List.append_assoc, hheader]
  dsimp only
  rw [scan_encodeTuples, scan_trailer, List.append_nil]
  rfl

/-! ## Any division of a stream -/

/-- The calls for the chunks of a stream end, with the fields and the error that the
reading of all of it gives. -/
def EndsAs (chunks : List (List UInt8)) (reading : List Field × Reading) : Prop :=
  ∃ fuel result, Parser.parseChunks fuel {} chunks = some result ∧ result.1 = reading.1 ∧
    ∀ error, result.2 = .error error ↔ reading.2 = .failed error

/-- **Where no length below -1 is read**, the calls end however the stream is divided, and
with the same fields and error, just if no number of fields below -1 is read; and a copy
gives its fields. -/
theorem parseChunks_endsAs_iff {bytes : List UInt8} (hlength : (read bytes).2 ≠ .malformed .length) :
    ((∀ chunks : List (List UInt8), chunks.flatten = bytes → EndsAs chunks (read bytes)) ↔
        (read bytes).2 ≠ .malformed .count) ∧
      ∀ copy : Copy, copy.encode = bytes → ∀ chunks : List (List UInt8), chunks.flatten = bytes →
        ∃ fuel p, Parser.parseChunks fuel {} chunks = some (copy.fields, .ok p) := by
  refine ⟨⟨fun hends hcount => ?_, fun hcount chunks hchunks => ?_⟩, fun copy hcopy chunks hchunks => ?_⟩
  · obtain ⟨fuel, result, hrun, -⟩ := hends [bytes] (List.flatten_singleton)
    have hmeets := Parser.parseChunks_meets_read [bytes]
    rw [List.flatten_singleton, show read bytes = ((read bytes).1, .malformed .count) from Prod.ext rfl hcount] at hmeets
    exact Option.some_ne_none _ (hrun.symm.trans (hmeets fuel))
  · have hmeets := Parser.parseChunks_meets_read chunks
    rw [hchunks] at hmeets
    rcases hread : read bytes with ⟨fields, progress | error | what⟩
    · rw [hread] at hmeets
      obtain ⟨p, -, fuel, htakes⟩ := hmeets
      exact ⟨fuel, _, (htakes fuel).trans (if_pos le_rfl), rfl, by simp⟩
    · rw [hread] at hmeets
      obtain ⟨fuel, htakes⟩ := hmeets
      exact ⟨fuel, _, (htakes fuel).trans (if_pos le_rfl), rfl, by simp⟩
    · rw [hread] at hlength hcount
      cases what with
      | count => exact absurd rfl hcount
      | length => exact absurd rfl hlength
  · have hmeets := Parser.parseChunks_meets_read chunks
    rw [hchunks, ← hcopy, read_encode] at hmeets
    obtain ⟨p, -, fuel, htakes⟩ := hmeets
    exact ⟨fuel, p, (htakes fuel).trans (if_pos le_rfl)⟩

/-- A byte and a null, in two chunks. -/
theorem parseChunks_of_byte_and_null :
    ∃ copy : Copy, copy.fields = [some [7], none] ∧ ∃ fuel p,
      Parser.parseChunks fuel {} [copy.encode.take 25, copy.encode.drop 25] = some ([some [7], none], .ok p) := by
  let copy : Copy := ⟨[], by decide, [⟨[some [7], none], by decide, by simp⟩]⟩
  have hlength : (read copy.encode).2 ≠ .malformed .length := by
    rw [read_encode]
    simp
  exact ⟨copy, rfl, (parseChunks_endsAs_iff hlength).2 copy rfl _ (by simp)⟩

/-- With -2 fields in a tuple a call does not end. -/
theorem parseChunks_endless :
    ¬∀ bytes (chunks : List (List UInt8)), chunks.flatten = bytes → ∃ fuel, Parser.parseChunks fuel {} chunks ≠ none := by
  intro hall
  obtain ⟨fuel, hrun⟩ := hall _ [PGCOPY_SIGNATURE ++ encodeInt 4 0 ++ encodeInt 4 0 ++ encodeInt 2 (-2)] rfl
  have hheader : frontHeader (PGCOPY_SIGNATURE ++ encodeInt 4 0 ++ encodeInt 4 0 ++ encodeInt 2 (-2))
      = .body (encodeInt 2 (-2)) := @frontHeader_encode [] (by decide) (encodeInt 2 (-2))
  have hcount : readInt 2 (encodeInt 2 (-2)) 0 = some (-2) := by decide
  have hscan : scan 0 (encodeInt 2 (-2)) = ([], .malformed .count) := by
    refine scan_malformed ?_
    rw [front, frontCount, hcount]
    rfl
  have hmeets := Parser.parseChunks_meets_read [PGCOPY_SIGNATURE ++ encodeInt 4 0 ++ encodeInt 4 0 ++ encodeInt 2 (-2)]
  rw [List.flatten_singleton, read, feed, List.nil_append, hheader] at hmeets
  simp only [hscan] at hmeets
  exact hrun (hmeets fuel)

end ZeroSync.BinaryCopy
