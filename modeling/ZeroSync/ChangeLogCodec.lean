/-
`change-streamer/change-log-codec.ts`: the part of a stream message that a change
log keeps of its JSON text, and the message as it is read back.

The text of a message is cut at its first comma and at its last comma or bracket,
so what is kept is the text of the change whatever is in it
(`reconstruct_extract`).
-/
import ZeroSync.ChangeLogCookies
import Mathlib.Data.String.Basic
import Mathlib.Order.Defs.LinearOrder

namespace ZeroSync.ChangeLogDB

open Backfills (DataChange)

/-- A state version as it is passed and kept: letters and digits, and the dot before
a minor version. -/
structure Watermark where
  text : String
  plain : text.toList.all (fun c => c.isAlphanum || c == '.') = true
  deriving DecidableEq

theorem Watermark.text_injective : Function.Injective Watermark.text := by
  rintro ⟨a, _⟩ ⟨b, _⟩ h
  cases h
  rfl

instance : LinearOrder Watermark := LinearOrder.lift' Watermark.text Watermark.text_injective

/-- `ChangeTag`; the tags of data and schema changes are `change`. -/
inductive ChangeTag
  | begin
  | commit
  | rollback
  | change (name : String)
  deriving DecidableEq

def ChangeTag.text : ChangeTag → String
  | .begin => "begin"
  | .commit => "commit"
  | .rollback => "rollback"
  | .change name => name

/-- `DataOrSchemaChange`: its tag, its JSON text, and what the cookies take of it. -/
structure DataOrSchemaChange (J : Type) where
  name : String
  json : String
  change : DataChange J

/-- `ChangeStreamData`; a message of the source is given by its JSON text. -/
inductive ChangeStreamData (J : Type)
  | begin (json : String) (commitWatermark : Watermark)
  | data (change : DataOrSchemaChange J)
  | commit (json : String) (watermark : Watermark)
  | rollback (json : String)

variable {J : Type}

/-- `serializeChangeStreamData` -/
def serializeChangeStreamData : ChangeStreamData J → String
  | .begin json commitWatermark =>
    "[\"begin\"," ++ json ++ ",\x7b\"commitWatermark\":\"" ++ commitWatermark.text ++ "\"\x7d]"
  | .data change => "[\"data\"," ++ change.json ++ "]"
  | .commit json watermark => "[\"commit\"," ++ json ++ ",\x7b\"watermark\":\"" ++ watermark.text ++ "\"\x7d]"
  | .rollback json => "[\"rollback\"," ++ json ++ "]"

def indexOf (s : List Char) (c : Char) : ℤ :=
  match s.findIdx? (· == c) with
  | some i => i
  | none => -1

def lastIndexOf (s : List Char) (c : Char) : ℤ :=
  match s.reverse.findIdx? (· == c) with
  | some i => s.length - 1 - i
  | none => -1

/-- `substring`: negative bounds are 0, and bounds in the wrong order are swapped. -/
def substring (s : List Char) (start stop : ℤ) : List Char :=
  (s.take (max start.toNat stop.toNat)).drop (min start.toNat stop.toNat)

def extractChangeSubstring (streamMessageJSON : String) (tag : ChangeTag) : String :=
  let s := streamMessageJSON.toList
  match tag with
  | .begin | .commit => .ofList (substring s (indexOf s ',' + 1) (lastIndexOf s ','))
  | _ => .ofList (substring s (indexOf s ',' + 1) (lastIndexOf s ']'))

/-- `WatermarkedChange` -/
structure WatermarkedChange where
  watermark : Watermark
  tag : ChangeTag
  json : String
  deriving DecidableEq

/-- `reconstructWatermarkedChange` -/
def reconstructWatermarkedChange (watermark : Watermark) (tag : ChangeTag) (change : String) : WatermarkedChange :=
  match tag with
  | .begin =>
    ⟨watermark, tag, "[\"begin\"," ++ change ++ ",\x7b\"commitWatermark\":\"" ++ watermark.text ++ "\"\x7d]"⟩
  | .commit => ⟨watermark, tag, "[\"commit\"," ++ change ++ ",\x7b\"watermark\":\"" ++ watermark.text ++ "\"\x7d]"⟩
  | .rollback => ⟨watermark, tag, "[\"rollback\"," ++ change ++ "]"⟩
  | .change _ => ⟨watermark, tag, "[\"data\"," ++ change ++ "]"⟩

/-! ## What is kept is the change -/

theorem indexOf_append {l r : List Char} {c : Char} (h : c ∉ l) : indexOf (l ++ c :: r) c = l.length := by
  unfold indexOf
  have hl : l.findIdx? (· == c) = none :=
    List.findIdx?_eq_none_iff.mpr fun x hx => by simpa using fun heq : x = c => h (heq ▸ hx)
  rw [List.findIdx?_append, hl, List.findIdx?_cons]
  simp

theorem lastIndexOf_append {l r : List Char} {c : Char} (h : c ∉ r) : lastIndexOf (l ++ c :: r) c = l.length := by
  unfold lastIndexOf
  have hr : r.reverse.findIdx? (· == c) = none :=
    List.findIdx?_eq_none_iff.mpr fun x hx => by simpa using fun heq : x = c => h (heq ▸ List.mem_reverse.mp hx)
  rw [List.reverse_append, List.reverse_cons, List.append_assoc, List.findIdx?_append, hr, List.singleton_append,
    List.findIdx?_cons]
  simp
  omega

theorem substring_between {pre post : List Char} (mid : List Char) {c : Char} (hpre : ',' ∉ pre) (hpost : c ∉ post) :
    let s := pre ++ ',' :: (mid ++ c :: post)
    substring s (indexOf s ',' + 1) (lastIndexOf s c) = mid := by
  intro s
  have hs : s = (pre ++ ',' :: mid) ++ c :: post := by simp [s]
  have hstart : indexOf s ',' + 1 = ((pre.length + 1 : ℕ) : ℤ) := by rw [indexOf_append hpre]; rfl
  have hstop : lastIndexOf s c = ((pre.length + 1 + mid.length : ℕ) : ℤ) := by
    rw [hs, lastIndexOf_append hpost, List.length_append, List.length_cons]
    omega
  have hlen : pre.length + 1 + mid.length = (pre ++ ',' :: mid).length := by
    rw [List.length_append, List.length_cons]
    omega
  have hcut : pre ++ ',' :: mid = (pre ++ [',']) ++ mid := by simp
  unfold substring
  rw [hstart, hstop, Int.toNat_natCast, Int.toNat_natCast, Nat.max_eq_right (Nat.le_add_right _ _),
    Nat.min_eq_left (Nat.le_add_right _ _), hs, hlen, List.take_left, hcut]
  exact List.drop_left' (by simp)

theorem Watermark.comma_notMem (w : Watermark) : ',' ∉ w.text.toList := by
  intro h
  have hc := List.all_eq_true.mp w.plain ',' h
  revert hc
  decide

/-- The tag of a message, and the watermark that it is kept with in a transaction. -/
def ChangeStreamData.tag : ChangeStreamData J → ChangeTag
  | .begin .. => .begin
  | .data change => .change change.name
  | .commit .. => .commit
  | .rollback _ => .rollback

/-- The JSON text of the change of a message. -/
def ChangeStreamData.change : ChangeStreamData J → String
  | .begin json _ | .commit json _ | .rollback json => json
  | .data change => change.json

/-- `substring_between` of strings. -/
theorem ofList_substring {s change : String} (pre post : List Char) {c : Char}
    (hs : s.toList = pre ++ ',' :: (change.toList ++ c :: post)) (hpre : ',' ∉ pre) (hpost : c ∉ post) :
    String.ofList (substring s.toList (indexOf s.toList ',' + 1) (lastIndexOf s.toList c)) = change := by
  have h := substring_between change.toList hpre hpost
  rw [← hs] at h
  rw [h, String.ofList_toList]

theorem extract_serialize (m : ChangeStreamData J) :
    extractChangeSubstring (serializeChangeStreamData m) m.tag = m.change := by
  cases m with
  | begin json w =>
    have hpost : ',' ∉ "\x7b\"commitWatermark\":\"".toList ++ w.text.toList ++ "\"\x7d]".toList := by
      simp [w.comma_notMem]
    refine ofList_substring "[\"begin\"".toList _ ?_ (by decide) hpost
    simp [serializeChangeStreamData, ChangeStreamData.change]
  | commit json w =>
    have hpost : ',' ∉ "\x7b\"watermark\":\"".toList ++ w.text.toList ++ "\"\x7d]".toList := by
      simp [w.comma_notMem]
    refine ofList_substring "[\"commit\"".toList _ ?_ (by decide) hpost
    simp [serializeChangeStreamData, ChangeStreamData.change]
  | data change =>
    refine ofList_substring "[\"data\"".toList [] ?_ (by decide) List.not_mem_nil
    simp [serializeChangeStreamData, ChangeStreamData.change]
  | rollback json =>
    refine ofList_substring "[\"rollback\"".toList [] ?_ (by decide) List.not_mem_nil
    simp [serializeChangeStreamData, ChangeStreamData.change]

/-- The watermark that a message has of its own. -/
def ChangeStreamData.At (w : Watermark) : ChangeStreamData J → Prop
  | .begin _ commitWatermark => commitWatermark = w
  | .commit _ watermark => watermark = w
  | .data _ | .rollback _ => True

/-- **A message is read back as it was written.** -/
theorem reconstruct_extract {w : Watermark} {m : ChangeStreamData J} (h : m.At w) :
    reconstructWatermarkedChange w m.tag (extractChangeSubstring (serializeChangeStreamData m) m.tag) =
      ⟨w, m.tag, serializeChangeStreamData m⟩ := by
  rw [extract_serialize]
  cases m with
  | begin json commitWatermark => cases h; rfl
  | commit json watermark => cases h; rfl
  | data change => rfl
  | rollback json => rfl

end ZeroSync.ChangeLogDB
