/-
`PokeChunkEncoder` of `zero-cache/src/types/poke-chunk.ts`: the patches of a poke,
streamed as a JSON array into binary messages of a bounded size.

The encoder has taken some text when the chunks it has emitted and its buffer hold that
text, cut between characters (`Holds`). Every write adds its own text (`write_holds`),
with a loop that ends: each pass takes a character or empties a buffer that was not
empty. Together the chunks are the text of the array (`encodePoke_chunks`).
-/
import Mathlib.Algebra.Order.BigOperators.Group.List
import Mathlib.Algebra.Order.Group.Nat
import ZeroSync.TextEncoder

namespace ZeroSync.PokeChunk

open TextEncoder

/-- `POKE_CHUNK_MESSAGE_TYPE`. -/
def POKE_CHUNK_MESSAGE_TYPE : UInt8 := 0x00

/-- What the encoder throws, and that the fuel of a loop is out. -/
inductive PokeChunkError
  /-- `poke chunk size must be at least five bytes` -/
  | chunkBytes
  /-- `cannot add a patch to a finished poke` -/
  | addFinished
  /-- `cannot finish a poke twice` -/
  | finishTwice
  | fuel
  deriving DecidableEq

/-- `PokeChunkEncoder`, with the chunks it has emitted. Of its buffer these are the bytes
up to `#bufferedBytes`; those after them are never read. -/
structure PokeChunkEncoder where
  chunkBytes : ℕ
  buffer : List UInt8
  patchCount : ℕ
  finished : Bool
  emitted : List (List UInt8)

namespace PokeChunkEncoder

/-- The constructor. -/
def new (chunkBytes : ℕ) : Except PokeChunkError PokeChunkEncoder :=
  if 5 ≤ chunkBytes then
    .ok { chunkBytes, buffer := [POKE_CHUNK_MESSAGE_TYPE], patchCount := 0, finished := false, emitted := [] }
  else
    .error .chunkBytes

/-- `#flush`. -/
def flush (e : PokeChunkEncoder) : PokeChunkEncoder :=
  if e.buffer.length = 1 then
    e
  else
    { e with emitted := e.emitted ++ [e.buffer], buffer := e.buffer.take 1 }

/-- One pass of the loop of `#write`: the encoder, and `read`. -/
def writePass (e : PokeChunkEncoder) (value : Units) (read : ℕ) : PokeChunkEncoder × ℕ :=
  let result := encodeInto (value.drop read) (e.chunkBytes - e.buffer.length)
  let e := { e with buffer := e.buffer ++ result.written }
  -- A multi-byte code point may not fit in the remaining space.
  let e := if e.buffer.length = e.chunkBytes ∨ result.read = 0 then e.flush else e
  (e, read + result.read)

/-- The loop of `#write`. -/
def writeLoop : ℕ → PokeChunkEncoder → Units → ℕ → Except PokeChunkError PokeChunkEncoder
  | 0, e, value, read => if read < value.length then .error .fuel else .ok e
  | fuel + 1, e, value, read =>
    if read < value.length then
      let (e, read) := e.writePass value read
      writeLoop fuel e value read
    else
      .ok e

/-- `#write`. -/
def write (fuel : ℕ) (e : PokeChunkEncoder) (value : Units) : Except PokeChunkError PokeChunkEncoder :=
  writeLoop fuel e value 0

/-- `'['`. -/
def openBracket : UInt16 := 0x5B

/-- `','`. -/
def comma : UInt16 := 0x2C

/-- `']'`. -/
def closeBracket : UInt16 := 0x5D

/-- `addPatch`. -/
def addPatch (fuel : ℕ) (e : PokeChunkEncoder) (serializedPatch : Units) : Except PokeChunkError PokeChunkEncoder :=
  if e.finished then
    .error .addFinished
  else do
    let separator := if e.patchCount = 0 then openBracket else comma
    let e ← write fuel { e with patchCount := e.patchCount + 1 } [separator]
    write fuel e serializedPatch

/-- `finish`. -/
def finish (fuel : ℕ) (e : PokeChunkEncoder) : Except PokeChunkError PokeChunkEncoder :=
  if e.finished then
    .error .finishTwice
  else do
    let rest := if e.patchCount = 0 then [openBracket, closeBracket] else [closeBracket]
    let e ← write fuel { e with finished := true } rest
    return e.flush

end PokeChunkEncoder

open PokeChunkEncoder

/-- A new encoder is given some patches and finished: the chunks it emits. -/
def encodePoke (fuel chunkBytes : ℕ) (patches : List Units) : Except PokeChunkError (List (List UInt8)) := do
  let e ← PokeChunkEncoder.new chunkBytes
  let e ← patches.foldlM (addPatch fuel) e
  let e ← finish fuel e
  return e.emitted

/-- `'[' + patches.join(',') + ']'`. -/
def pokeText (patches : List Units) : Units :=
  [openBracket] ++ List.intercalate [comma] patches ++ [closeBracket]

/-- The message with some text. -/
def chunk (text : List Char) : List UInt8 := POKE_CHUNK_MESSAGE_TYPE :: utf8 text

/-! ## What an encoder holds -/

/-- The encoder has emitted the first texts, and the last is in its buffer, with room for more. -/
structure Encodes (e : PokeChunkEncoder) (texts : List (List Char)) (last : List Char) : Prop where
  room : 5 ≤ e.chunkBytes
  emitted : e.emitted = texts.map chunk
  buffer : e.buffer = chunk last
  fits : ∀ text ∈ texts, text ≠ [] ∧ (chunk text).length ≤ e.chunkBytes
  space : (chunk last).length < e.chunkBytes

/-- An encoder for chunks of some size has taken some text. -/
def Holds (chunkBytes : ℕ) (e : PokeChunkEncoder) (text : List Char) : Prop :=
  e.chunkBytes = chunkBytes ∧ ∃ texts last, Encodes e texts last ∧ texts.flatten ++ last = text

theorem length_chunk (text : List Char) : (chunk text).length = 1 + (utf8 text).length := by
  rw [chunk, List.length_cons, Nat.add_comm]

theorem chunk_append (text more : List Char) : chunk (text ++ more) = chunk text ++ utf8 more := by
  rw [chunk, utf8_append]
  rfl

theorem utf8_eq_nil {text : List Char} (h : (utf8 text).length = 0) : text = [] := by
  cases text with
  | nil => rfl
  | cons c text =>
    have hpos := c.utf8Size_pos
    simp only [utf8, List.flatMap_cons, List.length_append, String.length_utf8EncodeChar] at h
    omega

theorem flush_holds {e : PokeChunkEncoder} {texts : List (List Char)} {last : List Char}
    (hroom : 5 ≤ e.chunkBytes) (hemitted : e.emitted = texts.map chunk) (hbuffer : e.buffer = chunk last)
    (hfits : ∀ text ∈ texts, text ≠ [] ∧ (chunk text).length ≤ e.chunkBytes)
    (hspace : (chunk last).length ≤ e.chunkBytes) :
    ∃ texts', Encodes e.flush texts' [] ∧ texts'.flatten = texts.flatten ++ last := by
  have hempty : (chunk []).length < e.chunkBytes := by
    have hone : (chunk []).length = 1 := rfl
    omega
  unfold flush
  split
  · rename_i hlength
    rw [hbuffer, length_chunk] at hlength
    have hnone : (utf8 last).length = 0 := by omega
    obtain rfl := utf8_eq_nil hnone
    exact ⟨texts, ⟨hroom, hemitted, hbuffer, hfits, hempty⟩, (List.append_nil _).symm⟩
  · rename_i hlength
    have hne : last ≠ [] := by
      rintro rfl
      exact hlength (by rw [hbuffer]; rfl)
    refine ⟨texts ++ [last], ⟨hroom, ?_, ?_, ?_, hempty⟩, ?_⟩
    · simp [hemitted, hbuffer]
    · rw [hbuffer]
      rfl
    · intro text htext
      rcases List.mem_append.mp htext with htext | htext
      · exact hfits text htext
      · rw [List.mem_singleton.mp htext]
        exact ⟨hne, hspace⟩
    · simp

@[simp] theorem flush_patchCount (e : PokeChunkEncoder) : e.flush.patchCount = e.patchCount := by
  unfold flush
  split <;> rfl

@[simp] theorem flush_finished (e : PokeChunkEncoder) : e.flush.finished = e.finished := by
  unfold flush
  split <;> rfl

@[simp] theorem flush_chunkBytes (e : PokeChunkEncoder) : e.flush.chunkBytes = e.chunkBytes := by
  unfold flush
  split <;> rfl

/-! ## The loop -/

/-- What a pass of the loop does: it takes some characters, or at least empties the buffer. -/
structure Passes (e : PokeChunkEncoder) (last : List Char) (taken : List (Char × ℕ)) (e' : PokeChunkEncoder)
    (last' : List Char) : Prop where
  chunkBytes : e'.chunkBytes = e.chunkBytes
  patchCount : e'.patchCount = e.patchCount
  finished : e'.finished = e.finished
  progress : taken ≠ [] ∨ last ≠ [] ∧ last' = []

/-- **Step.** -/
theorem writePass_encodes {e : PokeChunkEncoder} {texts : List (List Char)} {last : List Char}
    (h : Encodes e texts last) {value : Units} {read : ℕ} (hread : read < value.length) :
    ∃ taken texts' last', scalars (value.drop read) = taken ++ scalars (value.drop (e.writePass value read).2) ∧
      Encodes (e.writePass value read).1 texts' last' ∧
      texts'.flatten ++ last' = texts.flatten ++ last ++ taken.map (·.1) ∧
      Passes e last taken (e.writePass value read).1 last' := by
  obtain ⟨rest, hrest⟩ := fitting_prefix (e.chunkBytes - e.buffer.length) (scalars (value.drop read))
  have hfits := length_utf8_fitting (e.chunkBytes - e.buffer.length) (scalars (value.drop read))
  -- four bytes are left when nothing is in the buffer
  have hprogress : fitting (e.chunkBytes - e.buffer.length) (scalars (value.drop read)) ≠ [] ∨ last ≠ [] := by
    by_cases hlast : last = []
    · refine .inl (fitting_ne_nil ?_ fun hnil => ?_)
      · have hroom := h.room
        have hone : e.buffer.length = 1 := by rw [h.buffer, hlast]; rfl
        omega
      · have hlength := congrArg List.length (scalars_eq_nil hnil)
        rw [List.length_drop, List.length_nil] at hlength
        omega
    · exact .inr hlast
  unfold writePass encodeInto
  generalize fitting (e.chunkBytes - e.buffer.length) (scalars (value.drop read)) = taken at *
  have hdrop : scalars (value.drop (read + (taken.map (·.2)).sum)) = rest := by
    rw [← List.drop_drop]
    exact scalars_drop hrest
  have hbuffer : e.buffer ++ utf8 (taken.map (·.1)) = chunk (last ++ taken.map (·.1)) := by
    rw [chunk_append, h.buffer]
  have hlength : (chunk (last ++ taken.map (·.1))).length ≤ e.chunkBytes := by
    have hlt := h.space
    rw [← h.buffer] at hlt
    rw [← hbuffer, List.length_append]
    omega
  by_cases hflush : (e.buffer ++ utf8 (taken.map (·.1))).length = e.chunkBytes ∨ (taken.map (·.2)).sum = 0
  · obtain ⟨texts', hencodes, hflatten⟩ :=
      flush_holds (e := { e with buffer := e.buffer ++ utf8 (taken.map (·.1)) }) h.room h.emitted hbuffer h.fits hlength
    refine ⟨taken, texts', [], ?_, ?_, ?_, ?_⟩
    · exact hrest.trans (congrArg _ hdrop.symm)
    · simpa only [if_pos hflush] using hencodes
    · rw [List.append_nil, hflatten, List.append_assoc]
    · refine ⟨?_, ?_, ?_, hprogress.imp_right fun hlast => ⟨hlast, rfl⟩⟩
      · simp only [if_pos hflush, flush_chunkBytes]
      · simp only [if_pos hflush, flush_patchCount]
      · simp only [if_pos hflush, flush_finished]
  · have hne := hflush
    push Not at hne
    refine ⟨taken, texts, last ++ taken.map (·.1), ?_, ?_, ?_, ?_⟩
    · exact hrest.trans (congrArg _ hdrop.symm)
    · simp only [if_neg hflush]
      exact ⟨h.room, h.emitted, hbuffer, h.fits, Nat.lt_of_le_of_ne hlength (hbuffer ▸ hne.1)⟩
    · rw [List.append_assoc]
    · refine ⟨by simp only [if_neg hflush], by simp only [if_neg hflush], by simp only [if_neg hflush], .inl ?_⟩
      rintro rfl
      exact hne.2 rfl

/-- What is left for the loop to do: the characters, and the buffer. -/
def pending (value : Units) (read : ℕ) (last : List Char) : ℕ :=
  2 * (scalars (value.drop read)).length + if last = [] then 0 else 1

/-- **Run.** -/
theorem writeLoop_encodes {fuel : ℕ} {e : PokeChunkEncoder} {texts : List (List Char)} {last : List Char}
    (h : Encodes e texts last) {value : Units} {read : ℕ} (hfuel : pending value read last ≤ fuel) :
    ∃ e' texts' last', writeLoop fuel e value read = .ok e' ∧ Encodes e' texts' last' ∧
      texts'.flatten ++ last' = texts.flatten ++ last ++ text (value.drop read) ∧
      e'.chunkBytes = e.chunkBytes ∧ e'.patchCount = e.patchCount ∧ e'.finished = e.finished := by
  induction fuel generalizing e texts last read with
  | zero =>
    have hnil : scalars (value.drop read) = [] := by
      unfold pending at hfuel
      exact List.eq_nil_of_length_eq_zero (by omega)
    have hend : ¬ read < value.length := by
      have hlength := congrArg List.length (scalars_eq_nil hnil)
      rw [List.length_drop, List.length_nil] at hlength
      omega
    exact ⟨e, texts, last, by rw [writeLoop, if_neg hend], h, by simp [text, hnil], rfl, rfl, rfl⟩
  | succ fuel ih =>
    by_cases hread : read < value.length
    · obtain ⟨taken, texts₁, last₁, hscalars, hencodes, htext, hpass⟩ := writePass_encodes h hread
      have hless : pending value (e.writePass value read).2 last₁ ≤ fuel := by
        have hcount := congrArg List.length hscalars
        rw [List.length_append] at hcount
        unfold pending at hfuel ⊢
        rcases hpass.progress with htaken | ⟨hlast, hlast₁⟩
        · have hpos := List.length_pos_iff.mpr htaken
          split at hfuel <;> split <;> omega
        · rw [if_neg hlast] at hfuel
          rw [if_pos hlast₁]
          omega
      obtain ⟨e', texts', last', hloop, hencodes', htext', hbytes, hpatch, hfinished⟩ := ih hencodes hless
      refine ⟨e', texts', last', ?_, hencodes', ?_, hbytes.trans hpass.chunkBytes, hpatch.trans hpass.patchCount,
        hfinished.trans hpass.finished⟩
      · rw [writeLoop, if_pos hread]
        exact hloop
      · rw [htext', htext, text, text, hscalars, List.map_append, List.append_assoc]
    · have hnil : value.drop read = [] := List.drop_eq_nil_of_le (Nat.le_of_not_lt hread)
      exact ⟨e, texts, last, by rw [writeLoop, if_neg hread], h, by simp [text, hnil, scalars], rfl, rfl, rfl⟩

theorem write_holds {fuel chunkBytes : ℕ} {e : PokeChunkEncoder} {taken : List Char} (h : Holds chunkBytes e taken)
    (value : Units) (hfuel : 2 * value.length + 1 ≤ fuel) :
    ∃ e', write fuel e value = .ok e' ∧ Holds chunkBytes e' (taken ++ text value) ∧
      e'.patchCount = e.patchCount ∧ e'.finished = e.finished := by
  obtain ⟨hsize, texts, last, hencodes, htext⟩ := h
  have hpending : pending value 0 last ≤ fuel := by
    have hlength := length_scalars_le value
    unfold pending
    rw [List.drop_zero]
    split <;> omega
  obtain ⟨e', texts', last', hloop, hencodes', htext', hbytes, hrest⟩ := writeLoop_encodes hencodes hpending
  refine ⟨e', hloop, ⟨hbytes.trans hsize, texts', last', hencodes', ?_⟩, hrest⟩
  rw [htext', htext, List.drop_zero]

/-! ## The array -/

theorem text_openBracket : text [openBracket] = ['['] := by decide

theorem text_comma : text [comma] = [','] := by decide

theorem text_closeBracket : text [closeBracket] = [']'] := by decide

theorem addPatch_holds {fuel chunkBytes : ℕ} {e : PokeChunkEncoder} {taken : List Char} (h : Holds chunkBytes e taken)
    (hfinished : e.finished = false) {patch : Units} (hfuel : 2 * patch.length + 3 ≤ fuel) :
    ∃ e', addPatch fuel e patch = .ok e' ∧
      Holds chunkBytes e' (taken ++ (if e.patchCount = 0 then ['['] else [',']) ++ text patch) ∧
      e'.patchCount = e.patchCount + 1 ∧ e'.finished = false := by
  have hcounted : Holds chunkBytes { e with patchCount := e.patchCount + 1 } taken := by
    obtain ⟨hsize, texts, last, hencodes, htext⟩ := h
    exact ⟨hsize, texts, last, ⟨hencodes.room, hencodes.emitted, hencodes.buffer, hencodes.fits, hencodes.space⟩, htext⟩
  have hfuel₁ : 2 * [if e.patchCount = 0 then openBracket else comma].length + 1 ≤ fuel := by
    rw [List.length_singleton]
    omega
  have hfuel₂ : 2 * patch.length + 1 ≤ fuel := by omega
  obtain ⟨e₁, hwrite₁, hholds₁, hpatch₁, hfinished₁⟩ := write_holds hcounted _ hfuel₁
  obtain ⟨e₂, hwrite₂, hholds₂, hpatch₂, hfinished₂⟩ := write_holds hholds₁ patch hfuel₂
  refine ⟨e₂, ?_, ?_, hpatch₂.trans hpatch₁, hfinished₂.trans (hfinished₁.trans hfinished)⟩
  · rw [addPatch, if_neg (by simp [hfinished])]
    simp only [hwrite₁]
    exact hwrite₂
  · have htext : (if e.patchCount = 0 then ['['] else [',']) = text [if e.patchCount = 0 then openBracket else comma] := by
      split
      · exact text_openBracket.symm
      · exact text_comma.symm
    rw [htext]
    exact hholds₂

theorem addPatches_hold {fuel chunkBytes : ℕ} {patches : List Units}
    (hfuel : ∀ patch ∈ patches, 2 * patch.length + 3 ≤ fuel) {e : PokeChunkEncoder} {taken : List Char}
    (h : Holds chunkBytes e taken) (hfinished : e.finished = false) (hcount : e.patchCount ≠ 0) :
    ∃ e', patches.foldlM (addPatch fuel) e = .ok e' ∧
      Holds chunkBytes e' (taken ++ patches.flatMap fun patch => ',' :: text patch) ∧
      e'.patchCount ≠ 0 ∧ e'.finished = false := by
  induction patches generalizing e taken with
  | nil => exact ⟨e, rfl, by simpa using h, hcount, hfinished⟩
  | cons patch patches ih =>
    obtain ⟨e₁, hadd, hholds, hpatch, hfinished₁⟩ := addPatch_holds h hfinished (hfuel patch List.mem_cons_self)
    rw [if_neg hcount] at hholds
    have hcount₁ : e₁.patchCount ≠ 0 := by omega
    obtain ⟨e', hadds, hholds', hrest⟩ :=
      ih (fun p hp => hfuel p (List.mem_cons_of_mem _ hp)) hholds hfinished₁ hcount₁
    refine ⟨e', ?_, ?_, hrest⟩
    · rw [List.foldlM_cons, hadd]
      exact hadds
    · simpa using hholds'

/-- `'['` and the patches, or nothing if there are none. -/
def opened : List Units → List Char
  | [] => []
  | patch :: patches => '[' :: text patch ++ patches.flatMap fun patch => ',' :: text patch

theorem patches_hold {fuel chunkBytes : ℕ} {patches : List Units} (hfuel : ∀ patch ∈ patches, 2 * patch.length + 3 ≤ fuel)
    {e : PokeChunkEncoder} (h : Holds chunkBytes e []) (hfinished : e.finished = false) (hcount : e.patchCount = 0) :
    ∃ e', patches.foldlM (addPatch fuel) e = .ok e' ∧ Holds chunkBytes e' (opened patches) ∧
      (e'.patchCount = 0 ↔ patches = []) ∧ e'.finished = false := by
  cases patches with
  | nil => exact ⟨e, rfl, h, by simp [hcount], hfinished⟩
  | cons patch patches =>
    obtain ⟨e₁, hadd, hholds, hpatch, hfinished₁⟩ := addPatch_holds h hfinished (hfuel patch List.mem_cons_self)
    rw [if_pos hcount] at hholds
    have hcount₁ : e₁.patchCount ≠ 0 := by omega
    obtain ⟨e', hadds, hholds', hcount', hfinished'⟩ :=
      addPatches_hold (fun p hp => hfuel p (List.mem_cons_of_mem _ hp)) hholds hfinished₁ hcount₁
    refine ⟨e', ?_, ?_, by simp [hcount'], hfinished'⟩
    · rw [List.foldlM_cons, hadd]
      exact hadds
    · simpa [opened] using hholds'

theorem finish_emits {fuel chunkBytes : ℕ} {e : PokeChunkEncoder} {taken : List Char} (h : Holds chunkBytes e taken)
    (hfinished : e.finished = false) (hfuel : 5 ≤ fuel) :
    ∃ (e' : PokeChunkEncoder) (texts : List (List Char)), finish fuel e = .ok e' ∧ e'.emitted = texts.map chunk ∧
      texts.flatten = taken ++ (if e.patchCount = 0 then ['[', ']'] else [']']) ∧
      ∀ text ∈ texts, text ≠ [] ∧ (chunk text).length ≤ chunkBytes := by
  have hclosed : Holds chunkBytes { e with finished := true } taken := by
    obtain ⟨hsize, texts, last, hencodes, htext⟩ := h
    exact ⟨hsize, texts, last, ⟨hencodes.room, hencodes.emitted, hencodes.buffer, hencodes.fits, hencodes.space⟩, htext⟩
  have hfuel' : 2 * (if e.patchCount = 0 then [openBracket, closeBracket] else [closeBracket]).length + 1 ≤ fuel := by
    split <;> simp only [List.length_cons, List.length_nil] <;> omega
  obtain ⟨e₁, hwrite, ⟨hsize, texts, last, hencodes, htext⟩, -⟩ := write_holds hclosed _ hfuel'
  obtain ⟨texts', hflushed, hflatten⟩ :=
    flush_holds hencodes.room hencodes.emitted hencodes.buffer hencodes.fits (Nat.le_of_lt hencodes.space)
  refine ⟨e₁.flush, texts', ?_, hflushed.emitted, ?_, ?_⟩
  · rw [finish, if_neg (by simp [hfinished])]
    simp only [hwrite]
    rfl
  · rw [hflatten, htext]
    split
    · exact congrArg _ (by decide)
    · exact congrArg _ text_closeBracket
  · intro text htext
    rw [← hsize, ← flush_chunkBytes e₁]
    exact hflushed.fits text htext

theorem text_append_cons {u : UInt16} (hlow : isLow u = false) (hhigh : isHigh u = false) (s s' : Units) :
    text (s ++ u :: s') = text s ++ scalarOf u :: text s' := by
  rw [text, scalars_append_cons hlow, scalars_cons hhigh, List.map_append, List.map_cons, text, text]

theorem intercalate_cons {α : Type} (separator : α) (l : List α) (ls : List (List α)) :
    List.intercalate [separator] (l :: ls) = l ++ ls.flatMap (separator :: ·) := by
  induction ls generalizing l with
  | nil => simp [List.intercalate]
  | cons l' ls ih =>
    have hstep : List.intercalate [separator] (l :: l' :: ls) =
        l ++ separator :: List.intercalate [separator] (l' :: ls) := by
      simp [List.intercalate, List.intersperse]
    rw [hstep, ih l', List.flatMap_cons, List.cons_append]

theorem text_patches (patch : Units) (patches : List Units) (rest : Units) :
    text (patch ++ patches.flatMap (comma :: ·) ++ closeBracket :: rest) =
      text patch ++ (patches.flatMap fun patch => ',' :: text patch) ++ ']' :: text rest := by
  induction patches generalizing patch with
  | nil =>
    simp only [List.flatMap_nil, List.append_nil]
    exact text_append_cons (by decide) (by decide) patch rest
  | cons next patches ih =>
    have hnext := ih next
    simp only [List.flatMap_cons, List.cons_append, List.append_assoc] at hnext ⊢
    have hcomma : scalarOf comma = ',' := by decide
    rw [text_append_cons (by decide) (by decide), hcomma, hnext]

theorem text_pokeText (patches : List Units) :
    text (pokeText patches) = ['['] ++ List.intercalate [','] (patches.map text) ++ [']'] := by
  cases patches with
  | nil => decide
  | cons patch patches =>
    have hopen : scalarOf openBracket = '[' := by decide
    have hnil : text [] = [] := rfl
    have hpoke : pokeText (patch :: patches) =
        [] ++ openBracket :: (patch ++ patches.flatMap (comma :: ·) ++ [closeBracket]) := by
      rw [pokeText, intercalate_cons]
      simp
    rw [hpoke, text_append_cons (by decide) (by decide), text_patches, hopen, hnil, List.map_cons, intercalate_cons,
      List.flatMap_map]
    simp

theorem opened_closed (patches : List Units) :
    opened patches ++ (if patches = [] then ['[', ']'] else [']']) = text (pokeText patches) := by
  rw [text_pokeText]
  cases patches with
  | nil => rfl
  | cons patch patches =>
    rw [if_neg (List.cons_ne_nil _ _), opened, List.map_cons, intercalate_cons, List.flatMap_map]
    simp

theorem flatMap_tail_chunk (texts : List (List Char)) : (texts.map chunk).flatMap List.tail = utf8 texts.flatten := by
  induction texts with
  | nil => rfl
  | cons text texts ih =>
    rw [List.map_cons, List.flatMap_cons, ih, List.flatten_cons, utf8_append]
    rfl

/-- **The chunks of a poke are its JSON array.** For every size of at least five bytes and all patches, every loop ends,
and the chunks hold the text of the array, cut between characters: without their first bytes they are its UTF-8, and none
of them is empty or too large. -/
theorem encodePoke_chunks (chunkBytes : ℕ) (hsize : 5 ≤ chunkBytes) (patches : List Units) :
    ∃ enough, ∀ fuel, enough ≤ fuel → ∃ texts : List (List Char),
      encodePoke fuel chunkBytes patches = .ok (texts.map chunk) ∧
      (texts.map chunk).flatMap List.tail = encode (pokeText patches) ∧
      texts.flatten = ['['] ++ List.intercalate [','] (patches.map text) ++ [']'] ∧
      ∀ message ∈ texts.map chunk, 2 ≤ message.length ∧ message.length ≤ chunkBytes := by
  refine ⟨2 * (patches.map List.length).sum + 5, fun fuel hfuel => ?_⟩
  have hpatches : ∀ patch ∈ patches, 2 * patch.length + 3 ≤ fuel := by
    intro patch hpatch
    have hle : patch.length ≤ (patches.map List.length).sum := List.le_sum_of_mem (List.mem_map_of_mem hpatch)
    omega
  have hnew : Holds chunkBytes
      { chunkBytes, buffer := [POKE_CHUNK_MESSAGE_TYPE], patchCount := 0, finished := false, emitted := [] } [] := by
    have hone : (chunk []).length = 1 := rfl
    have hspace : (chunk []).length < chunkBytes := by omega
    exact ⟨rfl, [], [], ⟨hsize, rfl, rfl, by simp, hspace⟩, rfl⟩
  obtain ⟨e, hadds, hholds, hcount, hfinished⟩ := patches_hold hpatches hnew rfl rfl
  obtain ⟨e', texts, hfinish, hemitted, hflatten, hfits⟩ := finish_emits hholds hfinished (by omega : 5 ≤ fuel)
  have htext : texts.flatten = text (pokeText patches) := by
    rw [hflatten, ← opened_closed]
    simp only [hcount]
  refine ⟨texts, ?_, ?_, htext.trans (text_pokeText patches), ?_⟩
  · rw [encodePoke, PokeChunkEncoder.new, if_pos hsize]
    simp only [bind, Except.bind, hadds, hfinish, hemitted]
    rfl
  · rw [flatMap_tail_chunk, htext, encode]
  · intro message hmessage
    obtain ⟨text, htext, rfl⟩ := List.mem_map.mp hmessage
    obtain ⟨hne, hle⟩ := hfits text htext
    have hpos : (utf8 text).length ≠ 0 := fun hzero => hne (utf8_eq_nil hzero)
    rw [length_chunk] at hle ⊢
    omega

/-- The units of a face, between brackets: it fits no buffer that has a bracket in it. -/
def face : Units := [0xD83D, 0xDE42]

theorem encodePoke_chunks_face :
    ∃ enough, ∀ fuel, enough ≤ fuel → ∃ texts : List (List Char),
      encodePoke fuel 5 [face] = .ok (texts.map chunk) ∧
      (texts.map chunk).flatMap List.tail = encode (pokeText [face]) ∧
      texts.flatten = ['['] ++ List.intercalate [','] ([face].map text) ++ [']'] ∧
      ∀ message ∈ texts.map chunk, 2 ≤ message.length ∧ message.length ≤ 5 :=
  encodePoke_chunks 5 (by decide) [face]

example : encodePoke 20 5 [face] = .ok [[0x00, 0x5B], [0x00, 0xF0, 0x9F, 0x99, 0x82], [0x00, 0x5D]] := by
  decide +kernel

end ZeroSync.PokeChunk
