/-
`change-streamer/change-log-codec.ts` with the JSON of a message: what is replayed from
a change log is what was forwarded (`replayed_eq_iff`), if there is no comma in the
watermark of a begin or a commit.

The codec for watermarks of letters and digits is in `ChangeLogCodec`; it is the one here
(`extractChangeSubstring_eq`).
-/
import ZeroSync.ChangeLogCodec
import ZeroSync.JSONText

namespace ZeroSync.ChangeLogReplay

open ChangeLogDB (ChangeTag lastIndexOf substring substring_between)
open JSONText

/-! ## The codec -/

/-- `ChangeStreamData`; the name is the tag of a data or schema change. -/
inductive ChangeStreamData
  | begin (change : JSONValue) (commitWatermark : List Char)
  | data (name : String) (change : JSONValue)
  | commit (change : JSONValue) (watermark : List Char)
  | rollback (change : JSONValue)

namespace ChangeStreamData

/-- The message as JSON. -/
def toJSON : ChangeStreamData → JSONValue
  | .begin change commitWatermark =>
    .array [.string "begin".toList, change, .object [("commitWatermark".toList, .string commitWatermark)]]
  | .data _ change => .array [.string "data".toList, change]
  | .commit change watermark =>
    .array [.string "commit".toList, change, .object [("watermark".toList, .string watermark)]]
  | .rollback change => .array [.string "rollback".toList, change]

def tag : ChangeStreamData → ChangeTag
  | .begin .. => .begin
  | .data name _ => .change name
  | .commit .. => .commit
  | .rollback _ => .rollback

def change : ChangeStreamData → JSONValue
  | .begin change _ | .data _ change | .commit change _ | .rollback change => change

/-- The watermark in the message itself. -/
def ownWatermark : ChangeStreamData → Option (List Char)
  | .begin _ watermark | .commit _ watermark => some watermark
  | .data .. | .rollback _ => none

/-- The tags with which the storer has the change extracted: it has dropped a data change
by then, and with it the tag. -/
def Passes (m : ChangeStreamData) (tag : Option ChangeTag) : Prop :=
  tag = some m.tag ∨ tag = none ∧ ∃ name change, m = .data name change

end ChangeStreamData

def serializeChangeStreamData (data : ChangeStreamData) : List Char := stringify data.toJSON

def extractChangeSubstring (streamMessageJSON : List Char) (tag : Option ChangeTag) : List Char :=
  match tag with
  | some .begin | some .commit =>
    substring streamMessageJSON (ChangeLogDB.indexOf streamMessageJSON ',' + 1) (lastIndexOf streamMessageJSON ',')
  | _ => substring streamMessageJSON (ChangeLogDB.indexOf streamMessageJSON ',' + 1) (lastIndexOf streamMessageJSON ']')

/-- `reconstructWatermarkedChange` -/
def reconstructWatermarkedChange (watermark : List Char) (tag : ChangeTag) (change : List Char) :
    List Char × ChangeTag × List Char :=
  match tag with
  | .begin =>
    (watermark, tag, "[\"begin\",".toList ++ change ++ ",\x7b\"commitWatermark\":\"".toList ++ watermark ++ "\"\x7d]".toList)
  | .commit =>
    (watermark, tag, "[\"commit\",".toList ++ change ++ ",\x7b\"watermark\":\"".toList ++ watermark ++ "\"\x7d]".toList)
  | .rollback => (watermark, tag, "[\"rollback\",".toList ++ change ++ "]".toList)
  | .change _ => (watermark, tag, "[\"data\",".toList ++ change ++ "]".toList)

/-! ## What is cut out -/

theorem exists_last_of_mem {s : List Char} {c : Char} (h : c ∈ s) : ∃ a b, s = a ++ c :: b ∧ c ∉ b := by
  obtain ⟨b, a, hreverse, hb⟩ := List.eq_append_cons_of_mem (List.mem_reverse.2 h)
  refine ⟨a.reverse, b.reverse, ?_, fun hmem => hb (List.mem_reverse.1 hmem)⟩
  rw [← List.reverse_reverse s, hreverse]
  simp

/-- What stands between the first and the last comma is what stands before a watermark,
just if there is no comma in that. -/
theorem substring_eq_iff {pre key post : List Char} (mid watermark : List Char) (hpre : ',' ∉ pre) (hkey : ',' ∉ key)
    (hpost : ',' ∉ post) :
    let s := pre ++ ',' :: (mid ++ ',' :: (key ++ watermark ++ post))
    substring s (ChangeLogDB.indexOf s ',' + 1) (lastIndexOf s ',') = mid ↔ ',' ∉ watermark := by
  intro s
  constructor
  · intro heq hmem
    obtain ⟨a, b, rfl, hb⟩ := exists_last_of_mem hmem
    have hs : s = pre ++ ',' :: ((mid ++ ',' :: (key ++ a)) ++ ',' :: (b ++ post)) := by simp [s]
    have hbetween := substring_between (mid ++ ',' :: (key ++ a)) hpre (fun h => (List.mem_append.1 h).elim hb hpost)
    rw [← hs] at hbetween
    have hlength := congrArg List.length (hbetween.symm.trans heq)
    rw [List.length_append, List.length_cons] at hlength
    omega
  · intro hcomma
    refine substring_between mid hpre fun h => ?_
    rw [List.mem_append, List.mem_append] at h
    exact h.elim (fun h => h.elim hkey hcomma) hpost

theorem stringify_watermarked (name key watermark : List Char) (change : JSONValue) :
    stringify (.array [.string name, change, .object [(key, .string watermark)]])
      = ('[' :: quote name) ++ ',' :: (stringify change ++ ',' :: ('\x7b' :: quote key ++ ':' :: quote watermark ++ ['\x7d', ']'])) := by
  simp [stringify, elementTexts, memberTexts, joined]

theorem stringify_pair (name : List Char) (change : JSONValue) :
    stringify (.array [.string name, change]) = ('[' :: quote name) ++ ',' :: (stringify change ++ [']']) := by
  simp [stringify, elementTexts, joined]

theorem extract_watermarked {name key watermark : List Char} (change : JSONValue) (hname : ',' ∉ quote name)
    (hkey : ',' ∉ quote key) (hplain : ∀ c ∈ watermark, needsEscape c = false) :
    let s := stringify (.array [.string name, change, .object [(key, .string watermark)]])
    substring s (ChangeLogDB.indexOf s ',' + 1) (lastIndexOf s ',') = stringify change ↔ ',' ∉ watermark := by
  have h := @substring_eq_iff ('[' :: quote name) ('\x7b' :: quote key ++ [':', '\"']) ['\"', '\x7d', ']'] (stringify change)
    watermark (by simpa using hname) (by simpa using hkey) (by decide)
  have hquote : quote watermark = '\"' :: (watermark ++ ['\"']) := by rw [quote, flatMap_escape hplain]
  rw [stringify_watermarked, hquote]
  simpa using h

theorem extract_pair {name : List Char} (change : JSONValue) (hname : ',' ∉ quote name) :
    let s := stringify (.array [.string name, change])
    substring s (ChangeLogDB.indexOf s ',' + 1) (lastIndexOf s ']') = stringify change := by
  rw [stringify_pair]
  exact substring_between (stringify change) (by simpa using hname) List.not_mem_nil

theorem rebuilt_iff {name key watermark pre opening : List Char} {change : JSONValue} (hname : ',' ∉ quote name)
    (hkey : ',' ∉ quote key) (hplain : ∀ c ∈ watermark, needsEscape c = false) (hpre : pre = '[' :: quote name ++ [','])
    (hopening : opening = ',' :: '\x7b' :: quote key ++ [':', '\"']) :
    let s := stringify (.array [.string name, change, .object [(key, .string watermark)]])
    pre ++ substring s (ChangeLogDB.indexOf s ',' + 1) (lastIndexOf s ',') ++ opening ++ watermark ++ ['\"', '\x7d', ']'] = s ↔
      ',' ∉ watermark := by
  intro s
  have hquote : quote watermark = '\"' :: (watermark ++ ['\"']) := by rw [quote, flatMap_escape hplain]
  have hs : s = pre ++ stringify change ++ (opening ++ watermark ++ ['\"', '\x7d', ']']) := by
    rw [show s = _ from stringify_watermarked name key watermark change, hquote, hpre, hopening]
    simp
  have hassoc : ∀ cut : List Char, pre ++ cut ++ opening ++ watermark ++ ['\"', '\x7d', ']']
      = pre ++ cut ++ (opening ++ watermark ++ ['\"', '\x7d', ']']) := by simp
  have hextract : substring s (ChangeLogDB.indexOf s ',' + 1) (lastIndexOf s ',') = stringify change ↔ ',' ∉ watermark :=
    extract_watermarked change hname hkey hplain
  rw [← hextract, hassoc]
  conv_lhs => rhs; rw [hs]
  rw [List.append_cancel_right_eq, List.append_cancel_left_eq]

theorem rebuilt_pair {name pre : List Char} (change : JSONValue) (hname : ',' ∉ quote name)
    (hpre : pre = '[' :: quote name ++ [',']) :
    let s := stringify (.array [.string name, change])
    pre ++ substring s (ChangeLogDB.indexOf s ',' + 1) (lastIndexOf s ']') ++ [']'] = s := by
  intro s
  rw [show substring s (ChangeLogDB.indexOf s ',' + 1) (lastIndexOf s ']') = _ from extract_pair change hname, hpre,
    show s = _ from stringify_pair name change]
  simp

/-! ## Replayed changes -/

/-- **A change is replayed as it was forwarded**, under the watermark of its transaction,
just if there is no comma in the watermark of a begin or a commit. -/
theorem replayed_eq_iff {m : ChangeStreamData} {watermark : List Char} (hown : ∀ own ∈ m.ownWatermark, own = watermark)
    (hplain : ∀ own ∈ m.ownWatermark, ∀ c ∈ own, needsEscape c = false) {tag : Option ChangeTag} (htag : m.Passes tag) :
    reconstructWatermarkedChange watermark m.tag (extractChangeSubstring (serializeChangeStreamData m) tag)
        = (watermark, m.tag, serializeChangeStreamData m) ↔
      ∀ own ∈ m.ownWatermark, ',' ∉ own := by
  cases m with
  | begin change own =>
    obtain rfl : own = watermark := hown own rfl
    obtain rfl | ⟨-, _, _, hdata⟩ := htag
    · simp only [Prod.mk.injEq, true_and, reconstructWatermarkedChange, ChangeStreamData.tag, ChangeStreamData.ownWatermark,
        Option.mem_some_iff, forall_eq']
      exact rebuilt_iff (by decide) (by decide) (hplain own rfl) (by decide) (by decide)
    · cases hdata
  | commit change own =>
    obtain rfl : own = watermark := hown own rfl
    obtain rfl | ⟨-, _, _, hdata⟩ := htag
    · simp only [Prod.mk.injEq, true_and, reconstructWatermarkedChange, ChangeStreamData.tag, ChangeStreamData.ownWatermark,
        Option.mem_some_iff, forall_eq']
      exact rebuilt_iff (by decide) (by decide) (hplain own rfl) (by decide) (by decide)
    · cases hdata
  | rollback change =>
    refine iff_of_true ?_ fun own h => (by cases h)
    obtain rfl | ⟨-, _, _, hdata⟩ := htag
    · exact congrArg (fun json => (watermark, ChangeTag.rollback, json)) (rebuilt_pair change (by decide) (by decide))
    · cases hdata
  | data name change =>
    refine iff_of_true ?_ fun own h => (by cases h)
    obtain rfl | ⟨rfl, -⟩ := htag
    all_goals exact congrArg (fun json => (watermark, ChangeTag.change name, json)) (rebuilt_pair change (by decide) (by decide))

/-- The begin of a transaction, forwarded and replayed. -/
theorem replayed_eq_of_begin :
    reconstructWatermarkedChange "1a".toList .begin (extractChangeSubstring
        (serializeChangeStreamData (.begin (.object [("tag".toList, .string "begin".toList)]) "1a".toList)) (some .begin))
      = ("1a".toList, .begin,
          serializeChangeStreamData (.begin (.object [("tag".toList, .string "begin".toList)]) "1a".toList)) :=
  (@replayed_eq_iff (.begin (.object [("tag".toList, .string "begin".toList)]) "1a".toList) "1a".toList
    (by simp [ChangeStreamData.ownWatermark]) (by simp [ChangeStreamData.ownWatermark]; decide) (some .begin)
    (.inl rfl)).2 (by simp [ChangeStreamData.ownWatermark])

/-- A watermark with a comma is taken for a part of the change. -/
theorem replayed_ne_of_comma :
    ¬∀ (m : ChangeStreamData) (watermark : List Char), (∀ own ∈ m.ownWatermark, own = watermark) →
      (∀ own ∈ m.ownWatermark, ∀ c ∈ own, needsEscape c = false) →
        reconstructWatermarkedChange watermark m.tag (extractChangeSubstring (serializeChangeStreamData m) (some m.tag))
          = (watermark, m.tag, serializeChangeStreamData m) := by
  intro hall
  have h := hall (.begin (.object [("tag".toList, .string "begin".toList)]) "1,2".toList) "1,2".toList
    (by simp [ChangeStreamData.ownWatermark]) (by simp [ChangeStreamData.ownWatermark]; decide)
  revert h
  decide

end ZeroSync.ChangeLogReplay
