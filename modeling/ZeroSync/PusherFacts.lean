/-
What `combinePushes` sends.

The entries of a key become one push, with the mutations of all of them; the
pushes come in the order their keys are first queued. A mutation that is queued
twice is two mutations here, told apart by their places in the queue
(`numbered`), which `combinePushes` does not read (`combinePushes_map`).
-/
import ZeroSync.Fallible
import ZeroSync.Pusher
import ZeroSync.Streams

namespace ZeroSync

open CombinePushes

variable {μ ν : Type}

/-! ## The mutations of entries -/

def PusherEntry.withMutations (e : PusherEntry μ) (l : List ν) : PusherEntry ν :=
  { connCtx := e.connCtx
    push :=
      { mutations := l
        schemaVersion := e.push.schemaVersion
        pushVersion := e.push.pushVersion
        timestamp := e.push.timestamp
        requestID := e.push.requestID } }

def PusherEntry.map (f : μ → ν) (e : PusherEntry μ) : PusherEntry ν := e.withMutations (e.push.mutations.map f)

@[simp] theorem connCtx_withMutations (e : PusherEntry μ) (l : List ν) : (e.withMutations l).connCtx = e.connCtx := rfl

@[simp] theorem mutations_withMutations (e : PusherEntry μ) (l : List ν) : (e.withMutations l).push.mutations = l := rfl

@[simp] theorem schemaVersion_withMutations (e : PusherEntry μ) (l : List ν) :
    (e.withMutations l).push.schemaVersion = e.push.schemaVersion := rfl

@[simp] theorem pushVersion_withMutations (e : PusherEntry μ) (l : List ν) :
    (e.withMutations l).push.pushVersion = e.push.pushVersion := rfl

@[simp] theorem key_withMutations (e : PusherEntry μ) (l : List ν) : key (e.withMutations l) = key e := rfl

@[simp] theorem withMutations_withMutations (e : PusherEntry μ) (l : List ν) (l' : List μ) :
    (e.withMutations l).withMutations l' = e.withMutations l' := rfl

@[simp] theorem withMutations_self (e : PusherEntry μ) : e.withMutations e.push.mutations = e := rfl

def QueuedEntry.map (f : μ → ν) : QueuedEntry μ → QueuedEntry ν
  | .entry e => .entry (e.map f)
  | .stop => .stop
  | .undefined => .undefined

/-- The mutations of pushes, sent one after another. -/
def mutationsOf (es : List (PusherEntry μ)) : List μ := es.flatMap fun e => e.push.mutations

@[simp] theorem mutationsOf_nil : mutationsOf ([] : List (PusherEntry μ)) = [] := rfl

@[simp] theorem mutationsOf_cons (e : PusherEntry μ) (es : List (PusherEntry μ)) :
    mutationsOf (e :: es) = e.push.mutations ++ mutationsOf es := List.flatMap_cons

/-- The entries before the first `stop`. -/
def beforeStop : List (QueuedEntry μ) → List (PusherEntry μ)
  | [] => []
  | .stop :: _ | .undefined :: _ => []
  | .entry e :: q => e :: beforeStop q

/-- Whether there is a `stop`. -/
def stops : List (QueuedEntry μ) → Bool
  | [] => false
  | .stop :: _ | .undefined :: _ => true
  | .entry _ :: q => stops q

theorem beforeStop_map (f : μ → ν) (q : List (QueuedEntry μ)) :
    beforeStop (q.map (QueuedEntry.map f)) = (beforeStop q).map (PusherEntry.map f) := by
  induction q with
  | nil => rfl
  | cons a q ih =>
    cases a with
    | entry e => simp [beforeStop, QueuedEntry.map, ih]
    | stop => rfl
    | undefined => rfl

theorem mutationsOf_map (f : μ → ν) (es : List (PusherEntry μ)) :
    mutationsOf (es.map (PusherEntry.map f)) = (mutationsOf es).map f := by
  induction es with
  | nil => rfl
  | cons e es ih => simp [ih, PusherEntry.map]

/-! ## The assertions -/

/-- Two entries whose pushes may be combined. -/
structure Agrees (left right : PusherEntry μ) : Prop where
  connCtx : left.connCtx = right.connCtx
  schemaVersion : left.push.schemaVersion = right.push.schemaVersion
  pushVersion : left.push.pushVersion = right.push.pushVersion

theorem authEquals_iff {a b : Option Auth} : authEquals a b = true ↔ a = b := by
  cases a with
  | none => cases b <;> simp [authEquals]
  | some a =>
    cases b with
    | none => simp [authEquals]
    | some b =>
      obtain ⟨type, raw⟩ := a
      obtain ⟨type', raw'⟩ := b
      simp [authEquals]

theorem assert_bind_ok {b : Bool} {message : String} {x : Except String Unit} :
    ((do assert b message; x) = .ok ()) ↔ b = true ∧ x = .ok () := by
  cases b <;> simp [assert, bind, Except.bind]

theorem assert_ok {b : Bool} {message : String} : assert b message = .ok () ↔ b = true := by
  cases b <;> simp [assert]

theorem assertAreCompatiblePushes_ok {left right : PusherEntry μ} :
    assertAreCompatiblePushes left right = .ok () ↔ Agrees left right := by
  simp only [assertAreCompatiblePushes, assert_bind_ok, assert_ok, decide_eq_true_eq, authEquals_iff]
  constructor
  · rintro ⟨hclient, hws, hrevision, hauth, hschema, hpush, hcookie, horigin, huser, hurl⟩
    refine ⟨?_, hschema, hpush⟩
    obtain ⟨_, ⟨⟨_, _, _⟩, _, _, ⟨_, _, _⟩⟩⟩ := left
    obtain ⟨_, ⟨⟨_, _, _⟩, _, _, ⟨_, _, _⟩⟩⟩ := right
    simp_all
  · rintro ⟨hctx, hschema, hpush⟩
    simp [hctx, hschema, hpush]

/-! ## A composite -/

theorem addMutations_ok {c e c' : PusherEntry μ} :
    addMutations c e = .ok c' ↔ Agrees c e ∧ c' = c.withMutations (c.push.mutations ++ e.push.mutations) := by
  rw [← assertAreCompatiblePushes_ok, addMutations]
  cases assertAreCompatiblePushes c e with
  | error _ => simp [bind, Except.bind]
  | ok _ => simp [bind, Except.bind, pure, Except.pure, PusherEntry.withMutations, eq_comm]

theorem Agrees.withMutations {c e : PusherEntry μ} {l : List μ} : Agrees (c.withMutations l) e ↔ Agrees c e :=
  ⟨fun h => ⟨h.connCtx, h.schemaVersion, h.pushVersion⟩, fun h => ⟨h.connCtx, h.schemaVersion, h.pushVersion⟩⟩

theorem foldlM_addMutations_ok {es : List (PusherEntry μ)} {c c' : PusherEntry μ} :
    es.foldlM addMutations c = .ok c' ↔
      (∀ e ∈ es, Agrees c e) ∧ c' = c.withMutations (c.push.mutations ++ mutationsOf es) := by
  induction es generalizing c with
  | nil => simp [pure, Except.pure, eq_comm]
  | cons e es ih =>
    rw [List.foldlM_cons]
    constructor
    · intro h
      obtain ⟨c₁, hc₁, h⟩ := Fallible.bind_ok h
      obtain ⟨hagree, rfl⟩ := addMutations_ok.mp hc₁
      obtain ⟨hrest, rfl⟩ := ih.mp h
      refine ⟨List.forall_mem_cons.mpr ⟨hagree, fun e he => Agrees.withMutations.mp (hrest e he)⟩, ?_⟩
      simp
    · rintro ⟨hagree, rfl⟩
      obtain ⟨hhead, hrest⟩ := List.forall_mem_cons.mp hagree
      rw [addMutations_ok.mpr ⟨hhead, rfl⟩]
      refine ih.mpr ⟨fun e he => Agrees.withMutations.mpr (hrest e he), ?_⟩
      simp

/-- What the composite of a connection's entries is. -/
structure Combines (entries : List (PusherEntry μ)) (p : PusherEntry μ) : Prop where
  mutations : p.push.mutations = mutationsOf entries
  agrees : ∀ e ∈ entries, Agrees p e

theorem Combines.of_compositeOf {entries : List (PusherEntry μ)} {p : PusherEntry μ} (h : compositeOf entries = .ok p) :
    Combines entries p := by
  cases entries with
  | nil => cases h
  | cons first rest =>
    obtain ⟨hagree, rfl⟩ := foldlM_addMutations_ok.mp h
    exact ⟨by simp, fun e he => Agrees.withMutations.mpr (hagree e he)⟩

theorem compositeOf_ok {first : PusherEntry μ} {rest : List (PusherEntry μ)}
    (h : ∀ e ∈ first :: rest, Agrees first e) :
    ∃ p, compositeOf (first :: rest) = .ok p ∧ Combines (first :: rest) p := by
  have hok := foldlM_addMutations_ok.mpr
    ⟨fun e he => (Agrees.withMutations (l := [])).mpr (h e he), rfl⟩
  exact ⟨_, hok, .of_compositeOf hok⟩

/-! ## The groups -/

/-- The entries of a key. -/
abbrev entriesOf (es : List (PusherEntry μ)) (k : String) : List (PusherEntry μ) := Grouping.ofKey key es k

/-- The keys, as they are first queued. -/
def keysOf (es : List (PusherEntry μ)) : List String := (es.map key).eraseDups

theorem mem_entriesOf {es : List (PusherEntry μ)} {k : String} {e : PusherEntry μ} : e ∈ entriesOf es k ↔ e ∈ es ∧ key e = k := by
  simp [Grouping.ofKey]

theorem mem_keysOf {es : List (PusherEntry μ)} {k : String} : k ∈ keysOf es ↔ ∃ e ∈ es, key e = k := by
  simp [keysOf]

/-- The loop groups the entries before the first `stop`. -/
theorem combineFrom_eq (m : OrderedMap String (List (PusherEntry μ))) (q : List (QueuedEntry μ)) :
    combineFrom m q = do return (← collect ((beforeStop q).foldl (Grouping.add key) m), stops q) := by
  induction q generalizing m with
  | nil => rfl
  | cons a q ih =>
    cases a with
    | stop => rfl
    | undefined => rfl
    | entry e =>
      rw [combineFrom, beforeStop, stops, List.foldl_cons, Grouping.add]
      cases m.get? (key e) with
      | none => exact ih _
      | some existing => exact ih _

theorem combinePushes_eq (q : List (QueuedEntry μ)) :
    combinePushes q = do
      return (← ((keysOf (beforeStop q)).map (entriesOf (beforeStop q))).mapM compositeOf, stops q) := by
  rw [combinePushes, combineFrom_eq, collect, OrderedMap.values, Grouping.entries_foldl_add, List.map_map]
  rfl

theorem combinePushes_ok {q : List (QueuedEntry μ)} {pushes : List (PusherEntry μ)} {stopped : Bool}
    (h : combinePushes q = .ok (pushes, stopped)) :
    List.Forall₂ (fun k p => Combines (entriesOf (beforeStop q) k) p) (keysOf (beforeStop q)) pushes := by
  rw [combinePushes_eq] at h
  obtain ⟨ps, hps, h⟩ := Fallible.bind_ok h
  obtain ⟨rfl, -⟩ := Prod.mk.inj (Except.ok.inj h)
  have hall := List.forall₂_of_mapM_ok hps
  rw [List.forall₂_map_left_iff] at hall
  exact hall.imp fun k p hp => .of_compositeOf hp

theorem combinePushes_returns {q : List (QueuedEntry μ)}
    (h : ∀ e ∈ beforeStop q, ∀ f ∈ beforeStop q, key e = key f → Agrees e f) :
    ∃ pushes, combinePushes q = .ok (pushes, stops q) := by
  have hgroup : ∀ g ∈ (keysOf (beforeStop q)).map (entriesOf (beforeStop q)),
      ∃ p, compositeOf g = .ok p ∧ Combines g p := by
    intro g hg
    obtain ⟨k, hk, rfl⟩ := List.mem_map.mp hg
    cases hgroup : entriesOf (beforeStop q) k with
    | nil =>
      obtain ⟨e, he, hek⟩ := mem_keysOf.mp hk
      have hmem := mem_entriesOf.mpr ⟨he, hek⟩
      rw [hgroup] at hmem
      cases hmem
    | cons first rest =>
      have hmem (e : PusherEntry μ) (he : e ∈ first :: rest) : e ∈ beforeStop q ∧ key e = k :=
        mem_entriesOf.mp (hgroup ▸ he)
      obtain ⟨hfirst, hkey⟩ := hmem first (by simp)
      exact compositeOf_ok fun e he => h first hfirst e (hmem e he).1 (hkey.trans (hmem e he).2.symm)
  obtain ⟨ps, hps, -⟩ := List.mapM_ok_forall₂ hgroup
  exact ⟨ps, by rw [combinePushes_eq, hps]; rfl⟩

theorem mutationsOf_pushes {es : List (PusherEntry μ)} {ks : List String} {pushes : List (PusherEntry μ)}
    (h : List.Forall₂ (fun k p => Combines (entriesOf es k) p) ks pushes) :
    mutationsOf pushes = mutationsOf (ks.flatMap (entriesOf es)) := by
  induction h with
  | nil => rfl
  | cons hp _ ih => rw [mutationsOf_cons, ih, hp.mutations, List.flatMap_cons, mutationsOf, mutationsOf, mutationsOf,
      List.flatMap_append]

/-! ## What a batch should be -/

/-- The mutations of a client. -/
def ofClient (clientID : μ → String) (c : String) (l : List μ) : List μ := l.filter fun m => decide (clientID m = c)

/-- What the pushes for a list of entries should be. -/
structure Batches (clientID : μ → String) (es pushes : List (PusherEntry μ)) : Prop where
  /-- Each mutation is sent as often as it is queued. -/
  perm : (mutationsOf pushes).Perm (mutationsOf es)
  /-- Those of a client are sent in the order they are queued in. -/
  order : ∀ c, ofClient clientID c (mutationsOf pushes) = ofClient clientID c (mutationsOf es)
  context : ∀ p ∈ pushes, ∀ m ∈ p.push.mutations, ∃ e ∈ es, m ∈ e.push.mutations ∧ e.connCtx = p.connCtx

instance (left right : PusherEntry μ) : Decidable (Agrees left right) :=
  decidable_of_iff (left.connCtx = right.connCtx ∧ left.push.schemaVersion = right.push.schemaVersion ∧
      left.push.pushVersion = right.push.pushVersion)
    ⟨fun ⟨hctx, hschema, hpush⟩ => ⟨hctx, hschema, hpush⟩, fun h => ⟨h.connCtx, h.schemaVersion, h.pushVersion⟩⟩

def snapshotOf (e : PusherEntry μ) : ConnectionSnapshot := e.connCtx.toConnectionSnapshot

/-- Entries of one connection may be combined. -/
def Compatible (es : List (PusherEntry μ)) : Prop :=
  ∀ e ∈ es, ∀ f ∈ es, snapshotOf e = snapshotOf f → Agrees e f

instance (es : List (PusherEntry μ)) : Decidable (Compatible es) :=
  inferInstanceAs (Decidable (∀ e ∈ es, ∀ f ∈ es, snapshotOf e = snapshotOf f → Agrees e f))

/-- Different connections have different keys. -/
def KeysApart (es : List (PusherEntry μ)) : Prop :=
  ∀ e ∈ es, ∀ f ∈ es, key e = key f → snapshotOf e = snapshotOf f

/-- Where a connection is first queued. -/
def firstQueued (es : List (PusherEntry μ)) (s : ConnectionSnapshot) : ℕ := (es.map snapshotOf).idxOf s

/-- Of two entries with mutations of one client, the connection of the first is
queued first no later than that of the second. -/
def InTurn (clientID : μ → String) (es : List (PusherEntry μ)) : Prop :=
  es.Pairwise fun e f => ∀ m ∈ e.push.mutations, ∀ m' ∈ f.push.mutations, clientID m = clientID m' →
    firstQueued es (snapshotOf e) ≤ firstQueued es (snapshotOf f)

theorem key_of_snapshot {e f : PusherEntry μ} (h : snapshotOf e = snapshotOf f) : key e = key f := by
  obtain ⟨hclient, hws, hrevision⟩ := (ConnectionSnapshot.mk.injEq ..).mp h
  rw [key, key, hclient, hws, hrevision]

theorem KeysApart.idxOf_key {es : List (PusherEntry μ)} (h : KeysApart es) {e : PusherEntry μ} (he : e ∈ es) :
    (es.map key).idxOf (key e) = firstQueued es (snapshotOf e) :=
  Grouping.idxOf_map_congr fun f hf => ⟨h f hf e he, key_of_snapshot⟩

/-! ## When a batch is what it should be -/

theorem ofClient_mutationsOf (clientID : μ → String) (c : String) (es : List (PusherEntry μ)) :
    ofClient clientID c (mutationsOf es) =
      ofClient clientID c (mutationsOf (es.filter fun e => e.push.mutations.any fun m => decide (clientID m = c))) := by
  induction es with
  | nil => rfl
  | cons e es ih =>
    have hsplit : ofClient clientID c (mutationsOf (e :: es)) =
        ofClient clientID c e.push.mutations ++ ofClient clientID c (mutationsOf es) := by
      rw [mutationsOf_cons, ofClient, List.filter_append]
      rfl
    rw [hsplit, ih, List.filter_cons]
    split
    · rw [mutationsOf_cons, ofClient, ofClient, ofClient, List.filter_append]
    · next hnone =>
      have hnil : ofClient clientID c e.push.mutations = [] :=
        List.filter_eq_nil_iff.mpr fun m hm hc => hnone (List.any_eq_true.mpr ⟨m, hm, hc⟩)
      rw [hnil, List.nil_append]

theorem InTurn.order {clientID : μ → String} {es : List (PusherEntry μ)} (hkeys : KeysApart es)
    (h : InTurn clientID es) (c : String) :
    ofClient clientID c (mutationsOf ((keysOf es).flatMap (entriesOf es))) = ofClient clientID c (mutationsOf es) := by
  rw [ofClient_mutationsOf, ofClient_mutationsOf _ _ es, Grouping.filter_flatMap_ofKey]
  congr 2
  refine Grouping.flatMap_ofKey_eq key (es.map key).idxOf (Grouping.eraseDups_pairwise _) ?_ ?_
  · exact fun e he => mem_keysOf.mpr ⟨e, (List.mem_filter.mp he).1, rfl⟩
  · have hfilter := h.sublist (List.filter_sublist (p := fun e => e.push.mutations.any fun m => decide (clientID m = c)))
    refine hfilter.imp_of_mem fun {e f} he hf hturn => ?_
    obtain ⟨he, hec⟩ := List.mem_filter.mp he
    obtain ⟨hf, hfc⟩ := List.mem_filter.mp hf
    obtain ⟨m, hm, hmc⟩ := List.any_eq_true.mp hec
    obtain ⟨m', hm', hmc'⟩ := List.any_eq_true.mp hfc
    rw [hkeys.idxOf_key he, hkeys.idxOf_key hf]
    exact hturn m hm m' hm' ((of_decide_eq_true hmc).trans (of_decide_eq_true hmc').symm)

theorem InTurn.of_order {clientID : μ → String} {es : List (PusherEntry μ)} (hkeys : KeysApart es)
    (hnodup : (mutationsOf es).Nodup)
    (h : ∀ c, ofClient clientID c (mutationsOf ((keysOf es).flatMap (entriesOf es))) = ofClient clientID c (mutationsOf es)) :
    InTurn clientID es := by
  refine List.pairwise_iff_forall_sublist.mpr fun {e f} hef m hm m' hm' hclient => ?_
  by_contra hlt
  have he : e ∈ es := hef.subset (by simp)
  have hf : f ∈ es := hef.subset (by simp)
  rw [← hkeys.idxOf_key he, ← hkeys.idxOf_key hf, Nat.not_le] at hlt
  -- the mutation of `e` is queued first, that of `f` is sent first
  have hqueued : [m, m'].Sublist (mutationsOf es) := Grouping.pair_sublist_flatMap hef hm hm'
  have hentries : [f, e].Sublist ((keysOf es).flatMap (entriesOf es)) :=
    Grouping.pair_sublist_flatMap
      (Grouping.pair_sublist (Grouping.eraseDups_pairwise _) (mem_keysOf.mpr ⟨f, hf, rfl⟩) (mem_keysOf.mpr ⟨e, he, rfl⟩) hlt)
      (mem_entriesOf.mpr ⟨hf, rfl⟩) (mem_entriesOf.mpr ⟨he, rfl⟩)
  have hsent : [m', m].Sublist (mutationsOf ((keysOf es).flatMap (entriesOf es))) :=
    Grouping.pair_sublist_flatMap hentries hm' hm
  have hqueued := hqueued.filter fun m' => decide (clientID m' = clientID m)
  have hsent := hsent.filter fun m' => decide (clientID m' = clientID m)
  have horder := h (clientID m)
  simp only [ofClient] at horder
  rw [horder] at hsent
  simp only [List.filter_cons, ← hclient, decide_true, if_true, List.filter_nil] at hqueued hsent
  exact Grouping.not_pair_sublist_swap (hnodup.filter _) hqueued hsent

theorem batches_iff {clientID : μ → String} {q : List (QueuedEntry μ)} (hnodup : (mutationsOf (beforeStop q)).Nodup)
    (hcompat : Compatible (beforeStop q)) :
    (∃ pushes stopped, combinePushes q = .ok (pushes, stopped) ∧ Batches clientID (beforeStop q) pushes) ↔
      KeysApart (beforeStop q) ∧ InTurn clientID (beforeStop q) := by
  constructor
  · rintro ⟨pushes, stopped, hok, hbatch⟩
    have hpushes := combinePushes_ok hok
    have hkeys : KeysApart (beforeStop q) := by
      intro e he f hf hkey
      obtain ⟨p, -, hp⟩ := hpushes.flip.exists_of_mem (mem_keysOf.mpr ⟨e, he, rfl⟩)
      have hpe := hp.agrees e (mem_entriesOf.mpr ⟨he, rfl⟩)
      have hpf := hp.agrees f (mem_entriesOf.mpr ⟨hf, hkey.symm⟩)
      rw [snapshotOf, snapshotOf, ← hpe.connCtx, hpf.connCtx]
    refine ⟨hkeys, .of_order hkeys hnodup fun c => ?_⟩
    rw [← mutationsOf_pushes hpushes]
    exact hbatch.order c
  · rintro ⟨hkeys, hturn⟩
    obtain ⟨pushes, hok⟩ := combinePushes_returns fun e he f hf hkey => hcompat e he f hf (hkeys e he f hf hkey)
    have hpushes := combinePushes_ok hok
    have hsent := mutationsOf_pushes hpushes
    refine ⟨pushes, _, hok, ?_, ?_, ?_⟩
    · rw [hsent]
      refine (Grouping.flatMap_ofKey_perm key (Grouping.nodup_eraseDups _) ?_).flatMap_right _
      exact fun e he => mem_keysOf.mpr ⟨e, he, rfl⟩
    · exact fun c => hsent ▸ hturn.order hkeys c
    · intro p hp m hm
      obtain ⟨k, -, hk⟩ := hpushes.exists_of_mem hp
      rw [hk.mutations] at hm
      obtain ⟨e, he, hme⟩ := List.mem_flatMap.mp hm
      exact ⟨e, (mem_entriesOf.mp he).1, hme, (hk.agrees e he).connCtx.symm⟩

/-! ## Mutations told apart by their places -/

/-- The queue, each mutation with its place among the mutations of the queue. -/
def numberFrom : ℕ → List (QueuedEntry μ) → List (QueuedEntry (μ × ℕ))
  | _, [] => []
  | n, .entry e :: q =>
    .entry (e.withMutations (e.push.mutations.zipIdx n)) :: numberFrom (n + e.push.mutations.length) q
  | n, .stop :: q => .stop :: numberFrom n q
  | n, .undefined :: q => .undefined :: numberFrom n q

def numbered (q : List (QueuedEntry μ)) : List (QueuedEntry (μ × ℕ)) := numberFrom 0 q

theorem map_numberFrom (n : ℕ) (q : List (QueuedEntry μ)) : (numberFrom n q).map (QueuedEntry.map Prod.fst) = q := by
  induction q generalizing n with
  | nil => rfl
  | cons a q ih =>
    cases a with
    | entry e => simp [numberFrom, QueuedEntry.map, PusherEntry.map, ih]
    | stop => simp [numberFrom, QueuedEntry.map, ih]
    | undefined => simp [numberFrom, QueuedEntry.map, ih]

theorem mutationsOf_numberFrom (n : ℕ) (q : List (QueuedEntry μ)) :
    mutationsOf (beforeStop (numberFrom n q)) = (mutationsOf (beforeStop q)).zipIdx n := by
  induction q generalizing n with
  | nil => rfl
  | cons a q ih =>
    cases a with
    | entry e => simp [numberFrom, beforeStop, ih, List.zipIdx_append]
    | stop => rfl
    | undefined => rfl

theorem nodup_numbered (q : List (QueuedEntry μ)) : (mutationsOf (beforeStop (numbered q))).Nodup := by
  rw [numbered, mutationsOf_numberFrom]
  have hplaces : ((mutationsOf (beforeStop q)).zipIdx.map Prod.snd).Nodup := by
    rw [List.zipIdx_map_snd]
    exact List.nodup_range'
  exact hplaces.of_map _

/-- **The claim on a batch.** The pushes are what they should be, where a mutation
that is queued more than once counts as often, each time at its own place. -/
def KeepsOrder (clientID : μ → String) (q : List (QueuedEntry μ)) : Prop :=
  ∃ pushes stopped, combinePushes (numbered q) = .ok (pushes, stopped) ∧
    Batches (fun m => clientID m.1) (beforeStop (numbered q)) pushes

/-! ### The places are not read -/

theorem snapshotOf_map (f : μ → ν) (e : PusherEntry μ) : snapshotOf (e.map f) = snapshotOf e := rfl

theorem mutations_map (f : μ → ν) (e : PusherEntry μ) : (e.map f).push.mutations = e.push.mutations.map f := rfl

theorem key_map (f : μ → ν) (e : PusherEntry μ) : key (e.map f) = key e := rfl

theorem entriesOf_map (f : μ → ν) (es : List (PusherEntry μ)) (k : String) :
    entriesOf (es.map (PusherEntry.map f)) k = (entriesOf es k).map (PusherEntry.map f) := by
  rw [entriesOf, Grouping.ofKey, List.filter_map]
  rfl

theorem keysOf_map (f : μ → ν) (es : List (PusherEntry μ)) : keysOf (es.map (PusherEntry.map f)) = keysOf es := by
  simp only [keysOf, List.map_map, Function.comp_def, key_map]

theorem stops_map (f : μ → ν) (q : List (QueuedEntry μ)) : stops (q.map (QueuedEntry.map f)) = stops q := by
  induction q with
  | nil => rfl
  | cons a q ih =>
    cases a with
    | entry e => exact ih
    | stop => rfl
    | undefined => rfl

theorem addMutations_map (f : μ → ν) (c e : PusherEntry μ) :
    addMutations (c.map f) (e.map f) = (addMutations c e).map (PusherEntry.map f) := by
  have hassert : assertAreCompatiblePushes (c.map f) (e.map f) = assertAreCompatiblePushes c e := rfl
  rw [addMutations, addMutations, hassert]
  cases assertAreCompatiblePushes c e with
  | error _ => rfl
  | ok _ =>
    simp only [PusherEntry.map, PusherEntry.withMutations, bind, Except.bind, pure, Except.pure, Except.map, List.map_append]

theorem foldlM_addMutations_map (f : μ → ν) (es : List (PusherEntry μ)) (c : PusherEntry μ) :
    (es.map (PusherEntry.map f)).foldlM addMutations (c.map f) = (es.foldlM addMutations c).map (PusherEntry.map f) := by
  induction es generalizing c with
  | nil => rfl
  | cons e es ih =>
    rw [List.map_cons, List.foldlM_cons, List.foldlM_cons, addMutations_map]
    cases addMutations c e with
    | error _ => rfl
    | ok c => exact ih c

theorem compositeOf_map (f : μ → ν) (es : List (PusherEntry μ)) :
    compositeOf (es.map (PusherEntry.map f)) = (compositeOf es).map (PusherEntry.map f) := by
  cases es with
  | nil => rfl
  | cons first rest => exact foldlM_addMutations_map f (first :: rest) (first.withMutations [])

theorem mapM_compositeOf_map (f : μ → ν) (groups : List (List (PusherEntry μ))) :
    (groups.map (List.map (PusherEntry.map f))).mapM compositeOf =
      (groups.mapM compositeOf).map (List.map (PusherEntry.map f)) := by
  induction groups with
  | nil => rfl
  | cons g groups ih =>
    rw [List.map_cons, List.mapM_cons, List.mapM_cons, compositeOf_map, ih]
    cases compositeOf g with
    | error _ => rfl
    | ok p => cases groups.mapM compositeOf <;> rfl

/-- `combinePushes` does not read the mutations. -/
theorem combinePushes_map (f : μ → ν) (q : List (QueuedEntry μ)) :
    combinePushes (q.map (QueuedEntry.map f)) =
      (combinePushes q).map fun (pushes, stopped) => (pushes.map (PusherEntry.map f), stopped) := by
  have hgroups : (keysOf (beforeStop q)).map (entriesOf ((beforeStop q).map (PusherEntry.map f))) =
      ((keysOf (beforeStop q)).map (entriesOf (beforeStop q))).map (List.map (PusherEntry.map f)) := by
    rw [List.map_map]
    exact List.map_congr_left fun k _ => entriesOf_map f _ k
  rw [combinePushes_eq, combinePushes_eq, beforeStop_map, stops_map, keysOf_map, hgroups, mapM_compositeOf_map]
  cases ((keysOf (beforeStop q)).map (entriesOf (beforeStop q))).mapM compositeOf <;> rfl

theorem ofClient_map (clientID : ν → String) (f : μ → ν) (c : String) (l : List μ) :
    ofClient clientID c (l.map f) = (ofClient (fun m => clientID (f m)) c l).map f := by
  simp only [ofClient, List.filter_map, Function.comp_def]

theorem Batches.map {clientID : ν → String} (f : μ → ν) {es pushes : List (PusherEntry μ)}
    (h : Batches (fun m => clientID (f m)) es pushes) :
    Batches clientID (es.map (PusherEntry.map f)) (pushes.map (PusherEntry.map f)) where
  perm := by
    rw [mutationsOf_map, mutationsOf_map]
    exact h.perm.map f
  order c := by rw [mutationsOf_map, mutationsOf_map, ofClient_map, ofClient_map, h.order]
  context p hp m hm := by
    obtain ⟨p', hp', rfl⟩ := List.mem_map.mp hp
    obtain ⟨m', hm', rfl⟩ := List.mem_map.mp hm
    obtain ⟨e, he, hme, hctx⟩ := h.context p' hp' m' hm'
    exact ⟨e.map f, List.mem_map_of_mem he, List.mem_map_of_mem hme, hctx⟩

/-- What `KeepsOrder` says of the queue itself. -/
theorem KeepsOrder.batches {clientID : μ → String} {q : List (QueuedEntry μ)} (h : KeepsOrder clientID q) :
    ∃ pushes stopped, combinePushes q = .ok (pushes, stopped) ∧ Batches clientID (beforeStop q) pushes := by
  obtain ⟨pushes, stopped, hok, hbatch⟩ := h
  have hq : (numbered q).map (QueuedEntry.map Prod.fst) = q := map_numberFrom 0 q
  have hmap := combinePushes_map Prod.fst (numbered q)
  have hbatch : Batches clientID _ _ := hbatch.map Prod.fst
  rw [hq, hok] at hmap
  rw [← beforeStop_map, hq] at hbatch
  exact ⟨_, _, hmap, hbatch⟩

/-! ### Conditions on the queue -/

theorem Compatible.of_map {f : μ → ν} {es : List (PusherEntry μ)} (h : Compatible (es.map (PusherEntry.map f))) :
    Compatible es := fun _ he _ he' hs =>
  have hagree := h _ (List.mem_map_of_mem he) _ (List.mem_map_of_mem he') hs
  ⟨hagree.connCtx, hagree.schemaVersion, hagree.pushVersion⟩

theorem keysApart_map {f : μ → ν} {es : List (PusherEntry μ)} :
    KeysApart (es.map (PusherEntry.map f)) ↔ KeysApart es := by
  simp only [KeysApart, List.forall_mem_map, key_map, snapshotOf_map]

theorem inTurn_map {clientID : ν → String} {f : μ → ν} {es : List (PusherEntry μ)} :
    InTurn clientID (es.map (PusherEntry.map f)) ↔ InTurn (fun m => clientID (f m)) es := by
  have hfirst (s : ConnectionSnapshot) : firstQueued (es.map (PusherEntry.map f)) s = firstQueued es s := by
    simp only [firstQueued, List.map_map, Function.comp_def, snapshotOf_map]
  simp only [InTurn, List.pairwise_map, mutations_map, List.forall_mem_map, snapshotOf_map, hfirst]

/-- The snapshot of a socket of a client, with nothing else set. -/
def contextOf (clientID wsID : String) : ConnectionContext :=
  { clientID, wsID, revision := 0, auth := none, userID := none,
    mutateContext := { url := none, headerOptions := { cookie := none, origin := none } } }

/-- A push of mutations, each with the ID of its client. -/
def pushOf (connCtx : ConnectionContext) (mutations : List (String × ℕ)) : QueuedEntry (String × ℕ) :=
  .entry { connCtx, push := { mutations, schemaVersion := none, pushVersion := 1, timestamp := 0, requestID := "" } }

/-- Two tabs that push mutations of their own. -/
def tabsQueue : List (QueuedEntry (String × ℕ)) :=
  [pushOf (contextOf "a" "wa") [("a", 1)], pushOf (contextOf "b" "wb") [("b", 1)],
    pushOf (contextOf "a" "wa") [("a", 2)], .stop]

/-- Two tabs, of which the second pushes a mutation of the first. -/
def sharedQueue : List (QueuedEntry (String × ℕ)) :=
  [pushOf (contextOf "a" "wa") [("a", 1)], pushOf (contextOf "b" "wb") [("a", 2)], pushOf (contextOf "a" "wa") [("a", 3)]]

end ZeroSync
