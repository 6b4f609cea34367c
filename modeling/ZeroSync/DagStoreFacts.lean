/-
What a dag write leaves: the chunks that are reachable from the heads, each
with the number of heads and refs that name it.

A write keeps a balance of the heads it changes (`Written`), and its ref counts
are exact along any schedule (`RefCountUpdates.run_exact`). Every chunk with a
count is then reachable, since refs do not go in cycles: going from a chunk to
one that refers to it ends, and it ends at a head.
-/
import ZeroSync.DagStore
import ZeroSync.RefCountFacts
import Mathlib.Order.WellFoundedSet

namespace ZeroSync

open Relation

variable {V : Type}

/-! ## The kv store -/

namespace DagKV

/-- The chunks reachable from the heads. -/
inductive Reachable (kv : DagKV V) : Hash → Prop
  | head {name : String} {hash : Hash} (head : kv.heads.get? name = some hash) : Reachable kv hash
  | ref {g hash : Hash} (from_ : Reachable kv g) (ref : hash ∈ kv.getRefs g) : Reachable kv hash

/-- The heads that name a chunk, and its occurrences in the refs of the chunks that are stored. -/
def references (kv : DagKV V) (hash : Hash) : ℕ :=
  kv.heads.values.count hash + (kv.data.keys.flatMap kv.getRefs).count hash

/-- **The garbage is collected**: the chunks that are stored are those that are
reachable, and each has the count of what names it. -/
structure Collected (kv : DagKV V) : Prop where
  stored : ∀ hash, kv.hasChunk hash ↔ kv.Reachable hash
  refCount : ∀ hash, kv.hasChunk hash → kv.refCounts.get? hash = some (kv.references hash : ℤ)

/-- A chunk that is stored refers to another. -/
def Refers (kv : DagKV V) (g hash : Hash) : Prop := kv.hasChunk g ∧ hash ∈ kv.getRefs g

/-- What the commits keep. -/
structure Kept (kv : DagKV V) : Prop extends kv.Collected where
  absent : ∀ hash, kv.hasChunk hash = false → kv.refs.get? hash = none ∧ kv.refCounts.get? hash = none
  nonempty : kv.hasChunk emptyHash = false
  acyclic : ∀ hash, ¬TransGen kv.Refers hash hash

theorem hasChunk_iff (kv : DagKV V) (hash : Hash) : kv.hasChunk hash ↔ hash ∈ kv.data.keys := by
  rw [OrderedMap.mem_keys_iff]
  rfl

theorem get?_applyRefCountUpdates (l : List (Hash × ℤ)) (hl : (l.map (·.1)).Nodup) (kv : DagKV V) (hash : Hash) :
    (l.foldl applyRefCountUpdate kv).data.get? hash =
        (if OrderedMap.lookup hash l = some 0 then none else kv.data.get? hash) ∧
      (l.foldl applyRefCountUpdate kv).refs.get? hash =
        (if OrderedMap.lookup hash l = some 0 then none else kv.refs.get? hash) ∧
      (l.foldl applyRefCountUpdate kv).refCounts.get? hash =
        (OrderedMap.lookup hash l).elim (kv.refCounts.get? hash) (fun c => if c = 0 then none else some c) ∧
      (l.foldl applyRefCountUpdate kv).heads = kv.heads := by
  induction l generalizing kv with
  | nil => simp [OrderedMap.lookup]
  | cons e l ih =>
    rw [List.map_cons, List.nodup_cons] at hl
    obtain ⟨k, c⟩ := e
    rw [List.foldl_cons]
    obtain ⟨hdata, hrefs, hcounts, hheads⟩ := ih hl.2 (kv.applyRefCountUpdate (k, c))
    rw [hdata, hrefs, hcounts, hheads, OrderedMap.lookup, applyRefCountUpdate]
    by_cases hk : k = hash
    · subst hk
      rw [OrderedMap.lookup_of_notMem hl.1]
      by_cases hc : c = 0 <;> simp [hc, removeAllRelatedKeys, OrderedMap.get?_erase]
    · by_cases hc : c = 0 <;> simp [hk, hc, removeAllRelatedKeys, OrderedMap.get?_erase, OrderedMap.get?_set]

theorem reachable_of_acyclic {kv : DagKV V} (hacyclic : ∀ hash, ¬TransGen kv.Refers hash hash)
    (hnamed : ∀ hash, kv.hasChunk hash → (∃ name, kv.heads.get? name = some hash) ∨ ∃ g, kv.Refers g hash) {hash : Hash}
    (h : kv.hasChunk hash) : kv.Reachable hash := by
  have hfinite : {g | g ∈ kv.data.keys}.Finite := kv.data.keys.finite_toSet
  have : IsStrictOrder Hash (TransGen kv.Refers) :=
    { irrefl := hacyclic, trans := fun _ _ _ => TransGen.trans }
  refine (hfinite.wellFoundedOn (r := TransGen kv.Refers)).induction ((kv.hasChunk_iff hash).mp h) fun g hg ih => ?_
  rcases hnamed g ((kv.hasChunk_iff g).mpr hg) with ⟨name, hname⟩ | ⟨f, hf⟩
  · exact .head hname
  · exact .ref (ih f ((kv.hasChunk_iff f).mp hf.1) (.single hf)) hf.2

theorem Reachable.mem {kv : DagKV V} {S : Hash → Prop} (hheads : ∀ name hash, kv.heads.get? name = some hash → S hash)
    (hrefs : ∀ g hash, S g → hash ∈ kv.getRefs g → S hash) {hash : Hash} (h : kv.Reachable hash) : S hash := by
  induction h with
  | head head => exact hheads _ _ head
  | ref _ ref ih => exact hrefs _ _ ih ref

end DagKV

theorem count_filterMap_cons {α : Type} (f : α → Option Hash) (v : α) (l : List α) (x : Hash) :
    ((v :: l).filterMap f).count x = (f v).toList.count x + (l.filterMap f).count x := by
  rw [List.filterMap_cons]
  cases f v with
  | none => simp
  | some y => simp [List.count_cons, add_comm]

/-- How often a hash is among the values, or what `f` takes of them, when a value is replaced. -/
theorem count_set {α : Type} (m : OrderedMap String α) (name : String) (v : α) (f : α → Option Hash) (x : Hash) :
    ((m.set name v).values.filterMap f).count x + (((m.get? name).bind f).toList).count x =
      (m.values.filterMap f).count x + ((f v).toList).count x := by
  have hset := ((m.entries_set_perm name v).map (·.2)).filterMap f |>.count_eq x
  rw [List.map_cons, count_filterMap_cons] at hset
  change ((m.set name v).values.filterMap f).count x = _ at hset
  cases hget : m.get? name with
  | none =>
    rw [OrderedMap.entries_erase_of_none hget] at hset
    rw [hset]
    simp only [Option.bind_none, Option.toList_none, List.count_nil, OrderedMap.values]
    omega
  | some v₀ =>
    have hold := ((OrderedMap.entries_perm hget).map (·.2)).filterMap f |>.count_eq x
    rw [List.map_cons, count_filterMap_cons] at hold
    change (m.values.filterMap f).count x = _ at hold
    rw [hset, hold, Option.bind_some]
    dsimp only
    omega

theorem count_erase (m : OrderedMap String Hash) (name : String) (x : Hash) :
    (m.erase name).values.count x + (m.get? name).toList.count x = m.values.count x := by
  cases hget : m.get? name with
  | none =>
    rw [OrderedMap.values, OrderedMap.entries_erase_of_none hget]
    rfl
  | some v =>
    have hold := ((OrderedMap.entries_perm hget).map (·.2)).count_eq x
    rw [List.map_cons] at hold
    change m.values.count x = _ at hold
    rw [hold, List.count_cons, Option.toList_some, List.count_singleton]
    rfl

/-! ## What is put, and the heads that are changed -/

/-- The chunks that are put. -/
def puts (ops : List (DagOperation V)) : List (Chunk V) :=
  ops.filterMap fun
    | .putChunk c => some c
    | _ => none

/-- No two chunks that are put have one hash. -/
def Same (ops : List (DagOperation V)) : Prop := ∀ c ∈ puts ops, ∀ c' ∈ puts ops, c.hash = c'.hash → c = c'

/-- A write puts new chunks, each as it is; their refs, and the heads it sets,
name chunks that are stored or put. -/
structure NewChunks (kv : DagKV V) (ops : List (DagOperation V)) : Prop where
  new : ∀ c ∈ puts ops, kv.hasChunk c.hash = false
  same : Same ops
  refs : ∀ c ∈ puts ops, ∀ hash ∈ c.refs, kv.hasChunk hash ∨ ∃ c' ∈ puts ops, c'.hash = hash
  heads : ∀ name hash, .setHead name hash ∈ ops → kv.hasChunk hash ∨ ∃ c ∈ puts ops, c.hash = hash

/-- A chunk that is put refers to another hash. -/
def PutRefers (ops : List (DagOperation V)) (g hash : Hash) : Prop := ∃ c ∈ puts ops, c.hash = g ∧ hash ∈ c.refs

/-- The chunks put have hashes that are not the empty one, and no cycle of refs. -/
structure Founded (ops : List (DagOperation V)) : Prop where
  nonempty : ∀ c ∈ puts ops, c.hash ≠ emptyHash
  acyclic : ∀ hash, ¬TransGen (PutRefers ops) hash hash

theorem puts_concat (ops : List (DagOperation V)) (op : DagOperation V) :
    puts (ops ++ [op]) = puts ops ++ puts [op] := List.filterMap_append

namespace DagWrite

open RefCountUpdates

/-- What a write has done so far. -/
structure Written (kv : DagKV V) (ops : List (DagOperation V)) (w : DagWrite V) : Prop where
  putChunks : ∀ hash, hash ∈ w.putChunks ↔ ∃ c ∈ puts ops, c.hash = hash
  hasChunk : ∀ hash, w.kv.hasChunk hash ↔ kv.hasChunk hash ∨ ∃ c ∈ puts ops, c.hash = hash
  keeps : ∀ hash, hash ∉ w.putChunks → w.kv.refs.get? hash = kv.refs.get? hash
  putRefs : ∀ c ∈ puts ops, w.kv.getRefs c.hash = c.refs
  refCounts : w.kv.refCounts = kv.refCounts
  heads : ∀ name hash, w.kv.heads.get? name = some hash → kv.heads.get? name = some hash ∨ .setHead name hash ∈ ops
  changed : ∀ name c, w.changedHeads.get? name = some c → c.new = w.kv.heads.get? name
  balance : ∀ x, kv.heads.values.count x + (w.changedHeads.values.filterMap (·.new)).count x =
    w.kv.heads.values.count x + (w.changedHeads.values.filterMap (·.old)).count x

variable {assertValidHash : Hash → Bool} {kv kv' : DagKV V} {ops : List (DagOperation V)} {w w' : DagWrite V}
  {schedule : List ℕ}

theorem start_written : Written kv [] (start kv) := by
  refine ⟨?_, ?_, fun _ _ => rfl, ?_, rfl, fun _ _ h => .inl h, nofun, fun x => rfl⟩
  · simp [start, puts]
  · simp [start, puts]
  · simp [puts]

theorem putChunk_eq {c : Chunk V} (h : w.putChunk assertValidHash c = some w') :
    w' = { w with
      kv := { w.kv with
        data := w.kv.data.set c.hash c.data
        refs := if c.refs.length > 0 then w.kv.refs.set c.hash c.refs else w.kv.refs }
      putChunks := if c.hash ∈ w.putChunks then w.putChunks else w.putChunks ++ [c.hash] } := by
  rw [putChunk] at h
  split at h
  · cases h
  · dsimp only at h
    split at h
    · next hlen =>
      split at h
      · cases h
      · cases h
        rw [if_pos hlen]
    · next hlen =>
      cases h
      rw [if_neg hlen]

theorem Written.putChunk (h : Written kv ops w) {c : Chunk V} (hsame : Same (ops ++ [.putChunk c]))
    (habsent : kv.refs.get? c.hash = none) (hput : w.putChunk assertValidHash c = some w') :
    Written kv (ops ++ [.putChunk c]) w' := by
  have heq := putChunk_eq hput
  have hputs : puts (ops ++ [.putChunk c]) = puts ops ++ [c] := puts_concat ops _
  have hmem (hash : Hash) : hash ∈ w'.putChunks ↔ hash ∈ w.putChunks ∨ c.hash = hash := by
    rw [heq]
    dsimp only
    split
    · next hin => exact ⟨.inl, fun hor => hor.elim id fun he => he ▸ hin⟩
    · rw [List.mem_append, List.mem_singleton, eq_comm (a := hash)]
  have hexists (hash : Hash) : (∃ c' ∈ puts (ops ++ [.putChunk c]), c'.hash = hash) ↔
      (∃ c' ∈ puts ops, c'.hash = hash) ∨ c.hash = hash := by
    simp [hputs, or_and_right, exists_or]
  have hrefs (hash : Hash) (hne : c.hash ≠ hash) : w'.kv.refs.get? hash = w.kv.refs.get? hash := by
    rw [heq]
    dsimp only
    split
    · exact OrderedMap.get?_set_of_ne _ _ hne
    · rfl
  refine ⟨fun hash => ?_, fun hash => ?_, fun hash hnot => ?_, fun c' hc' => ?_, ?_, fun name hash hhead => ?_, ?_, ?_⟩
  · rw [hmem, h.putChunks, hexists]
  · rw [hexists, ← or_assoc, ← h.hasChunk, heq]
    rw [DagKV.hasChunk, OrderedMap.contains, OrderedMap.get?_set]
    split
    · next hhash => simp [hhash]
    · next hhash => simp [hhash, DagKV.hasChunk, OrderedMap.contains]
  · rw [hmem, not_or] at hnot
    rw [hrefs hash hnot.2, h.keeps hash hnot.1]
  · by_cases hhash : c.hash = c'.hash
    · obtain rfl : c = c' := hsame c (by simp [hputs]) c' hc' hhash
      by_cases hlen : c.refs.length > 0
      · simp [heq, DagKV.getRefs, hlen]
      · have hnil : c.refs = [] := List.length_eq_zero_iff.mp (by omega)
        have hkeep : w'.kv.getRefs c.hash = w.kv.getRefs c.hash := by
          rw [heq, DagKV.getRefs, if_neg hlen]
          rfl
        rw [hkeep]
        by_cases hold : ∃ c' ∈ puts ops, c'.hash = c.hash
        · obtain ⟨c', hc'', hh⟩ := hold
          rw [← hh, h.putRefs c' hc'', hsame c' (by simp [hputs, hc'']) c hc' hh]
        · rw [DagKV.getRefs, h.keeps c.hash fun hin => hold ((h.putChunks _).mp hin), habsent, hnil]
          rfl
    · have hc'' : c' ∈ puts ops := by
        rw [hputs] at hc'
        refine (List.mem_append.mp hc').resolve_right fun hin => hhash ?_
        rw [List.mem_singleton.mp hin]
      rw [DagKV.getRefs, hrefs _ hhash]
      exact h.putRefs c' hc''
  · rw [heq]
    exact h.refCounts
  · rw [heq] at hhead
    exact (h.heads name hash hhead).imp_right fun hin => List.mem_append_left _ hin
  · rw [heq]
    exact h.changed
  · rw [heq]
    exact h.balance

theorem getHead_eq {name : String} {old : Option Hash} (h : w.getHead name = some old) : old = w.kv.heads.get? name := by
  rw [getHead] at h
  split at h
  · next hnone =>
    cases h
    exact hnone.symm
  · next hsome =>
    split at h
    · cases h
      exact hsome.symm
    · cases h

/-- The heads when one is set or removed. -/
def setHeads (heads : OrderedMap String Hash) (name : String) (hash : Option Hash) : OrderedMap String Hash :=
  match hash with
  | none => heads.erase name
  | some hash => heads.set name hash

theorem get?_setHeads (heads : OrderedMap String Hash) (name name' : String) (hash : Option Hash) :
    (setHeads heads name hash).get? name' = if name = name' then hash else heads.get? name' := by
  cases hash with
  | none => exact OrderedMap.get?_erase ..
  | some hash => exact OrderedMap.get?_set ..

theorem count_setHeads (heads : OrderedMap String Hash) (name : String) (hash : Option Hash) (x : Hash) :
    (setHeads heads name hash).values.count x + (heads.get? name).toList.count x =
      heads.values.count x + hash.toList.count x := by
  cases hash with
  | none => simpa [setHeads] using count_erase heads name x
  | some hash => simpa [setHeads] using count_set heads name hash some x

theorem setHead_eq {name : String} {hash : Option Hash} (h : w.setHead name hash = some w') :
    w' = { w with
      kv := { w.kv with heads := setHeads w.kv.heads name hash }
      changedHeads := w.changedHeads.set name
        { new := hash, old := ((w.changedHeads.get? name).map (·.old)).getD (w.kv.heads.get? name) } } := by
  unfold DagWrite.setHead at h
  cases hold : w.getHead name with
  | none =>
    rw [hold] at h
    cases h
  | some old =>
    rw [hold] at h
    cases h
    rw [getHead_eq hold]
    cases w.changedHeads.get? name <;> rfl

theorem Written.setHead (h : Written kv ops w) {name : String} {hash : Option Hash} {op : DagOperation V}
    (hputs : puts [op] = []) (hop : ∀ x, hash = some x → op = .setHead name x) (hset : w.setHead name hash = some w') :
    Written kv (ops ++ [op]) w' := by
  have heq := setHead_eq hset
  have hsame : puts (ops ++ [op]) = puts ops := by rw [puts_concat, hputs, List.append_nil]
  have hheads : w'.kv.heads = setHeads w.kv.heads name hash := by rw [heq]
  have hchanged : w'.changedHeads = w.changedHeads.set name
      { new := hash, old := ((w.changedHeads.get? name).map (·.old)).getD (w.kv.heads.get? name) } := by rw [heq]
  refine ⟨?_, ?_, ?_, ?_, ?_, fun name' x hhead => ?_, fun name' c hc => ?_, fun x => ?_⟩
  · rw [hsame, heq]
    exact h.putChunks
  · rw [hsame, heq]
    exact h.hasChunk
  · rw [heq]
    exact h.keeps
  · rw [hsame, heq]
    exact h.putRefs
  · rw [heq]
    exact h.refCounts
  · rw [hheads, get?_setHeads] at hhead
    split at hhead
    · next hname =>
      right
      rw [hop x hhead, hname]
      simp
    · exact (h.heads name' x hhead).imp_right fun hin => List.mem_append_left _ hin
  · rw [hchanged, OrderedMap.get?_set] at hc
    rw [hheads, get?_setHeads]
    split at hc
    · next hname =>
      cases hc
      rw [if_pos hname]
    · next hname =>
      rw [if_neg hname]
      exact h.changed name' c hc
  · have hbalance := h.balance x
    have hcount := count_setHeads w.kv.heads name hash x
    rw [hheads, hchanged]
    have hnew := count_set w.changedHeads name
      { new := hash, old := ((w.changedHeads.get? name).map (·.old)).getD (w.kv.heads.get? name) } (·.new) x
    have hold := count_set w.changedHeads name
      { new := hash, old := ((w.changedHeads.get? name).map (·.old)).getD (w.kv.heads.get? name) } (·.old) x
    cases hget : w.changedHeads.get? name with
    | none =>
      simp only [hget, Option.bind_none, Option.toList_none, List.count_nil, Option.map_none, Option.getD_none] at hnew hold ⊢
      omega
    | some c =>
      have hc := h.changed name c hget
      simp only [hget, Option.bind_some, Option.map_some, Option.getD_some, hc] at hnew hold ⊢
      omega

/-- **An operation of a write** keeps the balance. -/
theorem Written.run (h : Written kv ops w) {op : DagOperation V} (hsame : Same (ops ++ [op]))
    (habsent : ∀ c ∈ puts (ops ++ [op]), kv.refs.get? c.hash = none) (hrun : w.run assertValidHash op = some w') :
    Written kv (ops ++ [op]) w' := by
  cases op with
  | putChunk c => exact h.putChunk hsame (habsent c (by simp [puts])) hrun
  | setHead name hash =>
    exact h.setHead rfl (fun x hx => by rw [Option.some.inj hx]) (show w.setHead name (some hash) = some w' from hrun)
  | removeHead name =>
    have hset : w.setHead name none = some w' := hrun
    refine h.setHead rfl (fun x hx => ?_) hset
    cases hx

theorem run_written (hsame : Same ops) (habsent : ∀ c ∈ puts ops, kv.refs.get? c.hash = none)
    (hrun : ops.foldlM (DagWrite.run assertValidHash) (start kv) = some w) : Written kv ops w := by
  induction ops using List.reverseRecOn generalizing w with
  | nil =>
    cases hrun
    exact start_written
  | append_singleton ops op ih =>
    rw [List.foldlM_append, Option.bind_eq_bind, Option.bind_eq_some_iff] at hrun
    obtain ⟨w₁, hrun₁, hrun₂⟩ := hrun
    have hop : w₁.run assertValidHash op = some w := by simpa using hrun₂
    have hmem {c : Chunk V} (hc : c ∈ puts ops) : c ∈ puts (ops ++ [op]) := by
      rw [puts_concat]
      exact List.mem_append_left _ hc
    have h₁ := ih (fun c hc c' hc' => hsame c (hmem hc) c' (hmem hc')) (fun c hc => habsent c (hmem hc)) hrun₁
    exact h₁.run hsame habsent hop

/-! ## The commit -/

theorem newHeads_count (l : List HeadChange) (x : Hash) :
    (newHeads l).count x + (l.filterMap (·.old)).count x = (oldHeads l).count x + (l.filterMap (·.new)).count x := by
  induction l with
  | nil => rfl
  | cons c l ih =>
    rw [newHeads, oldHeads] at ih ⊢
    rw [count_filterMap_cons, count_filterMap_cons]
    by_cases hc : c.old = c.new
    · rw [List.filter_cons_of_neg (by simpa using hc), hc]
      omega
    · rw [List.filter_cons_of_pos (by simpa using hc), count_filterMap_cons, count_filterMap_cons]
      omega

theorem Written.headsChange (h : Written kv ops w) :
    HeadsChange w.changedHeads.values kv.heads.values w.kv.heads.values := by
  refine ⟨fun x => ?_⟩
  have hbalance := h.balance x
  have hcount := newHeads_count w.changedHeads.values x
  omega

theorem refsOf_delegate (w : DagWrite V) (hash : Hash) :
    refsOf w.delegate hash = if hash = emptyHash then [] else w.kv.getRefs hash := rfl

theorem hasRefs_delegate (w : DagWrite V) (hash : Hash) : HasRefs w.delegate hash ↔ hash ≠ emptyHash := by
  simp [HasRefs, delegate]

theorem getRefCount_not_negative (w : DagWrite V) (hash : Hash) : w.delegate.getRefCount hash ≠ .error .negative := by
  change w.kv.getRefCount hash ≠ _
  rw [DagKV.getRefCount]
  split
  · nofun
  · split <;> nofun

/-- The count of a hash in the store, zero for none. -/
def storedCount (kv : DagKV V) (hash : Hash) : ℤ := (kv.refCounts.get? hash).getD 0

theorem Written.ne_empty (h : Written kv ops w) (hkept : kv.Kept) (hfounded : Founded ops) {hash : Hash}
    (hhas : w.kv.hasChunk hash) : hash ≠ emptyHash := by
  rintro rfl
  rcases (h.hasChunk emptyHash).mp hhas with hold | ⟨c, hc, heq⟩
  · rw [hkept.nonempty] at hold
    cases hold
  · exact hfounded.nonempty c hc heq

theorem Written.refs_closed (h : Written kv ops w) (hkept : kv.Kept) (hnew : NewChunks kv ops) {g hash : Hash}
    (href : hash ∈ w.kv.getRefs g) : w.kv.hasChunk hash := by
  rw [h.hasChunk]
  by_cases hput : ∃ c ∈ puts ops, c.hash = g
  · obtain ⟨c, hc, rfl⟩ := hput
    rw [h.putRefs c hc] at href
    exact hnew.refs c hc hash href
  · have hkeep := h.keeps g fun hin => hput ((h.putChunks g).mp hin)
    rw [DagKV.getRefs, hkeep] at href
    cases hhas : kv.hasChunk g with
    | true => exact .inl ((hkept.stored hash).mpr (.ref ((hkept.stored g).mp hhas) href))
    | false =>
      rw [(hkept.absent g hhas).1] at href
      cases href

theorem Written.heads_closed (h : Written kv ops w) (hkept : kv.Kept) (hnew : NewChunks kv ops) {name : String} {hash : Hash}
    (hhead : w.kv.heads.get? name = some hash) : w.kv.hasChunk hash := by
  rw [h.hasChunk]
  rcases h.heads name hash hhead with hold | hset
  · exact .inl ((hkept.stored hash).mpr (.head hold))
  · exact hnew.heads name hash hset

theorem Written.getRefs_stored (h : Written kv ops w) (hnew : NewChunks kv ops) {g : Hash} (hhas : kv.hasChunk g) :
    w.kv.getRefs g = kv.getRefs g := by
  have hnot : g ∉ w.putChunks := fun hin => by
    obtain ⟨c, hc, rfl⟩ := (h.putChunks g).mp hin
    rw [hnew.new c hc] at hhas
    cases hhas
  rw [DagKV.getRefs, h.keeps g hnot]
  rfl

theorem references_pos {hash : Hash} (h : kv.Reachable hash) (hclosed : ∀ g, kv.Reachable g → kv.hasChunk g) :
    0 < kv.references hash := by
  rw [DagKV.references]
  cases h with
  | head head =>
    have hmem : hash ∈ kv.heads.values := (OrderedMap.mem_values_iff ..).mpr ⟨_, head⟩
    have hpos := List.count_pos_iff.mpr hmem
    omega
  | ref hfrom ref =>
    have hmem : hash ∈ kv.data.keys.flatMap kv.getRefs :=
      List.mem_flatMap.mpr ⟨_, (kv.hasChunk_iff _).mp (hclosed _ hfrom), ref⟩
    have hpos := List.count_pos_iff.mpr hmem
    omega

theorem Written.counted (h : Written kv ops w) (hkept : kv.Kept) (hnew : NewChunks kv ops) :
    Counted w.delegate (storedCount kv) w.putChunks kv.heads.values kv.data.keys := by
  have hstored (g : Hash) (hhas : kv.hasChunk g) : storedCount kv g = kv.references g := by
    rw [storedCount, hkept.refCount g hhas]
    rfl
  have hmissing (g : Hash) (hhas : kv.hasChunk g = false) : storedCount kv g = 0 := by
    rw [storedCount, (hkept.absent g hhas).2]
    rfl
  have hne (g : Hash) (hhas : kv.hasChunk g) : g ≠ emptyHash := by
    rintro rfl
    rw [hkept.nonempty] at hhas
    cases hhas
  refine ⟨fun hash value hget => ?_, kv.data.nodup, fun g => ?_, fun x => ?_, fun g _ _ hnot => absurd rfl hnot⟩
  · have hcounts : kv.refCounts = w.kv.refCounts := h.refCounts.symm
    rw [storedCount, hcounts]
    change w.kv.getRefCount hash = _ at hget
    rw [DagKV.getRefCount] at hget
    split at hget
    · next hnone =>
      cases hget
      rw [hnone]
    · next hsome =>
      split at hget
      · cases hget
      · cases hget
        rw [hsome]
  · rw [← kv.hasChunk_iff, hasRefs_delegate]
    constructor
    · intro hhas
      refine ⟨?_, hne g hhas, rfl⟩
      rw [hstored g hhas]
      exact_mod_cast references_pos ((hkept.stored g).mp hhas) fun g => (hkept.stored g).mpr
    · rintro ⟨hpos, -, -⟩
      cases hhas : kv.hasChunk g with
      | true => rfl
      | false =>
        rw [hmissing g hhas] at hpos
        exact absurd hpos (lt_irrefl 0)
  · have hrefs : kv.data.keys.flatMap (refsOf w.delegate) = kv.data.keys.flatMap kv.getRefs := by
      refine List.flatMap_congr fun g hg => ?_
      have hhas := (kv.hasChunk_iff g).mpr hg
      rw [refsOf_delegate, if_neg (hne g hhas), h.getRefs_stored hnew hhas]
    rw [hrefs]
    cases hhas : kv.hasChunk x with
    | true =>
      rw [hstored x hhas, DagKV.references]
      push_cast
      rfl
    | false =>
      have hunnamed : kv.references x = 0 := by
        rw [DagKV.references, Nat.add_eq_zero_iff, List.count_eq_zero, List.count_eq_zero]
        refine ⟨fun hin => ?_, fun hin => ?_⟩
        · obtain ⟨name, hname⟩ := (OrderedMap.mem_values_iff ..).mp hin
          rw [(hkept.stored x).mpr (.head hname)] at hhas
          cases hhas
        · obtain ⟨g, hg, href⟩ := List.mem_flatMap.mp hin
          rw [(hkept.stored x).mpr (.ref ((hkept.stored g).mp ((kv.hasChunk_iff g).mpr hg)) href)] at hhas
          cases hhas
      rw [hmissing x hhas]
      rw [DagKV.references] at hunnamed
      omega

theorem commit_eq (h : w.commit schedule = .ok (some kv')) : ∃ s, w.computeRefCountUpdates schedule = .ok s ∧
    s.phase = .done ∧ kv' = w.kv.applyRefCountUpdates s.refCountUpdates := by
  rw [commit] at h
  cases hrun : w.computeRefCountUpdates schedule with
  | error e =>
    rw [hrun] at h
    cases h
  | ok s =>
    rw [hrun] at h
    cases hphase : s.phase with
    | done =>
      simp only [bind, Except.bind, hphase] at h
      cases h
      exact ⟨s, rfl, hphase, rfl⟩
    | newHeads left => simp [bind, Except.bind, hphase, pure, Except.pure] at h
    | putChunks => simp [bind, Except.bind, hphase, pure, Except.pure] at h
    | oldHeads left => simp [bind, Except.bind, hphase, pure, Except.pure] at h

theorem Written.acyclic (h : Written kv ops w) (hkept : kv.Kept) (hnew : NewChunks kv ops) (hfounded : Founded ops)
    (hash : Hash) : ¬TransGen w.kv.Refers hash hash := by
  -- From a chunk that was stored, refs lead to chunks that were stored.
  have hold {a b : Hash} (hhas : kv.hasChunk a) (hpath : TransGen w.kv.Refers a b) :
      TransGen kv.Refers a b ∧ kv.hasChunk b := by
    have hstep {a b : Hash} (hhas : kv.hasChunk a) (hrefers : w.kv.Refers a b) : kv.Refers a b ∧ kv.hasChunk b := by
      have href := hrefers.2
      rw [h.getRefs_stored hnew hhas] at href
      exact ⟨⟨hhas, href⟩, (hkept.stored b).mpr (.ref ((hkept.stored a).mp hhas) href)⟩
    induction hpath with
    | single hab => exact ⟨.single (hstep hhas hab).1, (hstep hhas hab).2⟩
    | tail _ hbc ih => exact ⟨ih.1.tail (hstep ih.2 hbc).1, (hstep ih.2 hbc).2⟩
  -- To a chunk that is put, refs lead from chunks that are put.
  have hput {a b : Hash} (hhas : kv.hasChunk b = false) (hpath : TransGen w.kv.Refers a b) :
      TransGen (PutRefers ops) a b := by
    have hstep {a b : Hash} (hhas : kv.hasChunk b = false) (hrefers : w.kv.Refers a b) :
        PutRefers ops a b ∧ kv.hasChunk a = false := by
      cases hstored : kv.hasChunk a with
      | true =>
        have hb := (hold hstored (.single hrefers)).2
        rw [hhas] at hb
        cases hb
      | false =>
        have hexists := (h.hasChunk a).mp hrefers.1
        rw [hstored] at hexists
        obtain ⟨c, hc, rfl⟩ := hexists.resolve_left nofun
        refine ⟨⟨c, hc, rfl, ?_⟩, rfl⟩
        rw [← h.putRefs c hc]
        exact hrefers.2
    induction hpath with
    | single hab => exact .single (hstep hhas hab).1
    | tail _ hbc ih => exact (ih (hstep hhas hbc).2).tail (hstep hhas hbc).1
  intro hcycle
  cases hhas : kv.hasChunk hash with
  | true => exact hkept.acyclic hash (hold hhas hcycle).1
  | false => exact hfounded.acyclic hash (hput hhas hcycle)

theorem Written.storedCount_pos (hkept : kv.Kept) (hash : Hash) : 0 < storedCount kv hash ↔ kv.hasChunk hash := by
  cases hhas : kv.hasChunk hash with
  | true =>
    rw [storedCount, hkept.refCount hash hhas]
    have hpos := references_pos ((hkept.stored hash).mp hhas) fun g => (hkept.stored g).mpr
    simpa using hpos
  | false =>
    rw [storedCount, (hkept.absent hash hhas).2]
    simp

/-- What a commit leaves, by the counts it computes. -/
structure Left (w : DagWrite V) (kv' : DagKV V) (count : Hash → ℤ) : Prop where
  hasChunk : ∀ x, kv'.hasChunk x ↔ 0 < count x
  refCount : ∀ x, 0 < count x → kv'.refCounts.get? x = some (count x)
  keeps : ∀ x, kv'.hasChunk x → w.kv.hasChunk x ∧ kv'.getRefs x = w.kv.getRefs x
  absent : ∀ x, kv'.hasChunk x = false → kv'.refs.get? x = none ∧ kv'.refCounts.get? x = none
  heads : kv'.heads = w.kv.heads

theorem Written.left (h : Written kv ops w) (hkept : kv.Kept) {s : RefCountUpdates}
    (hnonneg : ∀ x, 0 ≤ count (storedCount kv) s x) (hhas : ∀ x, 0 < count (storedCount kv) s x → w.kv.hasChunk x)
    (hloaded : ∀ x ∈ w.putChunks, s.Loaded x) :
    Left w (w.kv.applyRefCountUpdates s.refCountUpdates) (count (storedCount kv) s) := by
  set kv' := w.kv.applyRefCountUpdates s.refCountUpdates with hkv'
  have hlookups (x : Hash) := DagKV.get?_applyRefCountUpdates s.refCountUpdates.entries s.refCountUpdates.nodup w.kv x
  have hdata (x : Hash) : kv'.data.get? x = if s.refCountUpdates.get? x = some 0 then none else w.kv.data.get? x :=
    (hlookups x).1
  have hrefs (x : Hash) : kv'.refs.get? x = if s.refCountUpdates.get? x = some 0 then none else w.kv.refs.get? x :=
    (hlookups x).2.1
  have hcounts (x : Hash) : kv'.refCounts.get? x =
      (s.refCountUpdates.get? x).elim (w.kv.refCounts.get? x) fun c => if c = 0 then none else some c := (hlookups x).2.2.1
  -- A count that was not loaded is that of the store, and the chunk is not put.
  have hunloaded (x : Hash) (hnone : s.refCountUpdates.get? x = none) :
      x ∉ w.putChunks ∧ count (storedCount kv) s x = storedCount kv x := by
    refine ⟨fun hin => ?_, by rw [count, hnone]; rfl⟩
    have hload := hloaded x hin
    rw [Loaded, hnone] at hload
    cases hload
  have hzero (x : Hash) (hne : s.refCountUpdates.get? x = some 0) : count (storedCount kv) s x = 0 := by
    rw [count, hne]
    rfl
  have hhas' (x : Hash) : kv'.hasChunk x ↔ 0 < count (storedCount kv) s x := by
    rw [DagKV.hasChunk, OrderedMap.contains, hdata]
    by_cases hremoved : s.refCountUpdates.get? x = some 0
    · simp [hremoved, hzero x hremoved]
    · rw [if_neg hremoved]
      refine ⟨fun hw => ?_, hhas x⟩
      cases hget : s.refCountUpdates.get? x with
      | none =>
        obtain ⟨hnot, hcount⟩ := hunloaded x hget
        rw [hcount, storedCount_pos hkept]
        refine ((h.hasChunk x).mp hw).resolve_right fun hput => ?_
        exact hnot ((h.putChunks x).mpr hput)
      | some c =>
        have hge := hnonneg x
        have hcount : count (storedCount kv) s x = c := by rw [count, hget]; rfl
        have hne : c ≠ 0 := fun hc => hremoved (by rw [hget, hc])
        omega
  refine ⟨hhas', fun x hpos => ?_, fun x hx => ?_, fun x hx => ?_, (hlookups "").2.2.2⟩
  · rw [hcounts]
    cases hget : s.refCountUpdates.get? x with
    | none =>
      obtain ⟨-, hcount⟩ := hunloaded x hget
      rw [hcount] at hpos ⊢
      rw [Option.elim_none, h.refCounts]
      rw [storedCount] at hpos ⊢
      cases hstored : kv.refCounts.get? x with
      | none =>
        rw [hstored] at hpos
        exact absurd hpos (lt_irrefl 0)
      | some c => rfl
    | some c =>
      have hcount : count (storedCount kv) s x = c := by rw [count, hget]; rfl
      rw [hcount] at hpos ⊢
      rw [Option.elim_some, if_neg hpos.ne']
  · have hpos := (hhas' x).mp hx
    refine ⟨hhas x hpos, ?_⟩
    have hkeep : s.refCountUpdates.get? x ≠ some 0 := fun hc => by
      rw [hzero x hc] at hpos
      exact absurd hpos (lt_irrefl 0)
    rw [DagKV.getRefs, hrefs, if_neg hkeep]
    rfl
  · rw [hrefs, hcounts]
    cases hget : s.refCountUpdates.get? x with
    | none =>
      obtain ⟨hnot, hcount⟩ := hunloaded x hget
      have hmissing : kv.hasChunk x = false := by
        rw [← Bool.not_eq_true, ← storedCount_pos hkept, ← hcount, ← hhas', hx]
        exact Bool.false_ne_true
      simpa [h.keeps x hnot, h.refCounts] using hkept.absent x hmissing
    | some c =>
      have hcount : count (storedCount kv) s x = c := by rw [count, hget]; rfl
      have hc : c = 0 := by
        refine le_antisymm (not_lt.mp fun hpos => ?_) (hcount ▸ hnonneg x)
        rw [← hcount, ← hhas', hx] at hpos
        cases hpos
      simp [hc]

/-- **A commit collects the garbage**. -/
theorem commit_kept (hkept : kv.Kept) (hnew : NewChunks kv ops) (hfounded : Founded ops)
    (hrun : ops.foldlM (DagWrite.run assertValidHash) (start kv) = some w) (hcommit : w.commit schedule = .ok (some kv')) :
    kv'.Kept := by
  have h := run_written hnew.same (fun c hc => (hkept.absent _ (hnew.new c hc)).1) hrun
  obtain ⟨s, hs, hdone, rfl⟩ := commit_eq hcommit
  have hcounted := h.counted hkept hnew
  have hexact := (run_exact hcounted h.headsChange (getRefCount_not_negative w) schedule).2 s hs
  obtain ⟨⟨K, hnodup, hmem, hcount⟩, hloaded⟩ := hexact.done hdone
  have hhas (x : Hash) (hpos : 0 < count (storedCount kv) s x) : w.kv.hasChunk x := by
    rw [hcount] at hpos
    rcases Nat.eq_zero_or_pos (w.kv.heads.values.count x) with hzero | hhead
    · have hin : x ∈ K.flatMap (refsOf w.delegate) := List.count_pos_iff.mp (by omega)
      obtain ⟨g, -, href⟩ := List.mem_flatMap.mp hin
      rw [refsOf_delegate] at href
      split at href
      · cases href
      · exact h.refs_closed hkept hnew href
    · obtain ⟨name, hname⟩ := (OrderedMap.mem_values_iff ..).mp (List.count_pos_iff.mp hhead)
      exact h.heads_closed hkept hnew hname
  have hleft := h.left hkept (hexact.nonneg hcounted) hhas hloaded
  set kv' := w.kv.applyRefCountUpdates s.refCountUpdates
  have hne (g : Hash) (hg : kv'.hasChunk g) : g ≠ emptyHash := h.ne_empty hkept hfounded (hleft.keeps g hg).1
  have hperm : K.Perm kv'.data.keys := by
    refine (List.perm_ext_iff_of_nodup hnodup kv'.data.nodup).mpr fun g => ?_
    change g ∈ K ↔ g ∈ kv'.data.keys
    rw [← kv'.hasChunk_iff, hmem, hasRefs_delegate, ← hleft.hasChunk]
    exact ⟨fun hg => hg.1, fun hg => ⟨hg, hne g hg⟩⟩
  have hreferences (x : Hash) : count (storedCount kv) s x = kv'.references x := by
    have hrefs : kv'.data.keys.flatMap (refsOf w.delegate) = kv'.data.keys.flatMap kv'.getRefs := by
      refine List.flatMap_congr fun g hg => ?_
      have hg := (kv'.hasChunk_iff g).mpr hg
      rw [refsOf_delegate, if_neg (hne g hg), (hleft.keeps g hg).2]
    rw [hcount, (hperm.flatMap_right _).count_eq x, hrefs, DagKV.references, hleft.heads]
    push_cast
    rfl
  have hstored (x : Hash) : kv'.hasChunk x ↔ 0 < kv'.references x := by
    rw [hleft.hasChunk, hreferences]
    omega
  have hacyclic (x : Hash) : ¬TransGen kv'.Refers x x := fun hcycle => by
    have hrefers : kv'.Refers ≤ w.kv.Refers := fun a b hab =>
      ⟨(hleft.keeps a hab.1).1, (hleft.keeps a hab.1).2 ▸ hab.2⟩
    exact h.acyclic hkept hnew hfounded x (TransGen.mono hrefers x x hcycle)
  have hnamed (x : Hash) : kv'.hasChunk x ↔ (∃ name, kv'.heads.get? name = some x) ∨ ∃ g, kv'.Refers g x := by
    rw [hstored, DagKV.references, Nat.add_pos_iff_pos_or_pos, List.count_pos_iff, List.count_pos_iff,
      OrderedMap.mem_values_iff, List.mem_flatMap]
    simp only [DagKV.Refers, kv'.hasChunk_iff]
  refine ⟨⟨fun x => ⟨DagKV.reachable_of_acyclic hacyclic fun y => (hnamed y).mp, fun hx => ?_⟩, fun x hx => ?_⟩,
    hleft.absent, ?_, hacyclic⟩
  · exact hx.mem (S := fun y => kv'.hasChunk y) (fun name y hname => (hnamed y).mpr (.inl ⟨name, hname⟩))
      fun g y hg href => (hnamed y).mpr (.inr ⟨g, hg, href⟩)
  · rw [hleft.refCount x ((hleft.hasChunk x).mp hx), hreferences]
  · cases hempty : kv'.hasChunk emptyHash with
    | true => exact absurd rfl (hne emptyHash hempty)
    | false => rfl

/-! ## Committed writes -/

/-- A kv store after writes that are committed, one after another: each puts new
chunks, as `P` says, and its loads finish in some order. -/
inductive Committed (assertValidHash : Hash → Bool) (P : List (DagOperation V) → Prop) : DagKV V → Prop
  | empty : Committed assertValidHash P DagKV.empty
  | commit {kv kv' : DagKV V} (ops : List (DagOperation V)) (schedule : List ℕ)
      (from_ : Committed assertValidHash P kv) (new : NewChunks kv ops) (allowed : P ops)
      (transact : transact assertValidHash kv ops schedule = some kv') : Committed assertValidHash P kv'

theorem transact_eq (h : transact assertValidHash kv ops schedule = some kv') :
    ∃ w, ops.foldlM (DagWrite.run assertValidHash) (start kv) = some w ∧ w.commit schedule = .ok (some kv') := by
  rw [transact, Option.bind_eq_bind, Option.bind_eq_some_iff] at h
  obtain ⟨w, hrun, hcommit⟩ := h
  refine ⟨w, hrun, ?_⟩
  split at hcommit
  · next heq => rw [heq, hcommit]
  · cases hcommit

theorem empty_kept : (DagKV.empty : DagKV V).Kept := by
  have hunreachable (hash : Hash) (h : (DagKV.empty : DagKV V).Reachable hash) : False := by
    refine h.mem (S := fun _ => False) ?_ fun _ _ hg _ => hg
    intro name hash hname
    cases hname
  refine ⟨⟨fun hash => ⟨nofun, fun h => (hunreachable hash h).elim⟩, nofun⟩, fun _ _ => ⟨rfl, rfl⟩, rfl, fun hash h => ?_⟩
  rcases h with ⟨⟨hhas, -⟩⟩ | ⟨-, hhas, -⟩ <;> cases hhas

theorem Committed.kept (h : Committed assertValidHash Founded kv) : kv.Kept := by
  induction h with
  | empty => exact empty_kept
  | commit ops schedule _ new allowed transact ih =>
    obtain ⟨w, hrun, hcommit⟩ := transact_eq transact
    exact commit_kept ih new allowed hrun hcommit

theorem acyclic_of_rank (rank : Hash → ℕ) (h : ∀ c ∈ puts ops, ∀ x ∈ c.refs, rank x < rank c.hash) (hash : Hash) :
    ¬TransGen (PutRefers ops) hash hash := by
  have hdown {g x : Hash} (hpath : TransGen (PutRefers ops) g x) : rank x < rank g := by
    induction hpath with
    | single hrefers =>
      obtain ⟨c, hc, rfl, href⟩ := hrefers
      exact h c hc _ href
    | tail _ hrefers ih =>
      obtain ⟨c, hc, rfl, href⟩ := hrefers
      exact (h c hc _ href).trans ih
  exact fun hcycle => lt_irrefl _ (hdown hcycle)

theorem same_of_nodup (h : ((puts ops).map (·.hash)).Nodup) : Same ops :=
  fun _ hc _ hc' => List.inj_on_of_nodup_map h hc hc'

private def chunkA : Chunk Unit := ⟨"a", (), [], by decide⟩
private def chunkB : Chunk Unit := ⟨"b", (), ["a"], by decide⟩
private def chunkC : Chunk Unit := ⟨"c", (), ["a"], by decide⟩
private def chunkOfB : Chunk Unit := ⟨"a", (), ["b"], by decide⟩
private def chunkEmpty : Chunk Unit := ⟨emptyHash, (), ["a"], by decide⟩

end DagWrite

end ZeroSync
