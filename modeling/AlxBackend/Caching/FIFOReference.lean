import AlxBackend.Caching.FIFOCache

/-! The FIFO cache of the spec's eviction contract, as a reference for `FIFOCache`: a queue of
the distinct present keys; a put with a `None` key or item is ignored, an overwrite keeps its
key's place, and a new key at capacity evicts and reports the head of the queue.
`FIFOCache` answers as the reference on every run in which no put overwrites a present key;
its `order` is then the reference queue. On puts of distinct keys it keeps the last
`MAX_ITEMS` of them and evicts the others in the order they came. -/

namespace AlxBackend.Caching
open Python

variable {K V : Type} [DecidableEq K]

inductive Reply (K V : Type) where
  | got (item : Option V)
  | put (discarded : Option K) (raised : Option PyError)
  deriving DecidableEq, Repr

/-- The reference cache: its map and its queue of keys. -/
structure FifoReference (K V : Type) [DecidableEq K] where
  data : AList fun _ : K => V
  queue : List K

namespace FifoReference

def init : FifoReference K V := ⟨∅, []⟩

def put (maxItems : ℕ) (c : FifoReference K V) :
    Option K → Option V → FifoReference K V × Option K
  | some key, some item =>
    if key ∈ c.data then (⟨c.data.insert key item, c.queue⟩, none)
    else if maxItems ≤ c.data.keys.length then
      match c.queue with
      | [] => (⟨c.data.insert key item, [key]⟩, none)
      | victim :: rest => (⟨(c.data.erase victim).insert key item, rest ++ [key]⟩, some victim)
    else (⟨c.data.insert key item, c.queue ++ [key]⟩, none)
  | _, _ => (c, none)

def step (maxItems : ℕ) (c : FifoReference K V) : Call K V → FifoReference K V × Reply K V
  | .put key item => ((c.put maxItems key item).1, .put (c.put maxItems key item).2 none)
  | .get key => (c, .got (cacheGet c.data key))

def replies (maxItems : ℕ) (c : FifoReference K V) : List (Call K V) → List (Reply K V)
  | [] => []
  | call :: calls => (c.step maxItems call).2 :: replies maxItems (c.step maxItems call).1 calls

def run (maxItems : ℕ) (c : FifoReference K V) : List (Call K V) → FifoReference K V
  | [] => c
  | call :: calls => run maxItems (c.step maxItems call).1 calls

def Valid (c : FifoReference K V) : Prop :=
  c.queue.Nodup ∧ ∀ k, k ∈ c.queue ↔ k ∈ c.data

theorem valid_init : (init : FifoReference K V).Valid :=
  ⟨List.nodup_nil, fun k => ⟨fun h => absurd h (List.not_mem_nil k),
    fun h => absurd h (AList.not_mem_empty k)⟩⟩

theorem Valid.append {d : AList fun _ : K => V} {q : List K} (hv : Valid ⟨d, q⟩) {key : K}
    (hk : key ∉ d) (item : V) : Valid ⟨d.insert key item, q ++ [key]⟩ := by
  refine ⟨List.nodup_append.mpr ⟨hv.1, List.nodup_singleton _, ?_⟩, fun j => ?_⟩
  · exact List.disjoint_singleton.mpr fun h => hk ((hv.2 key).mp h)
  · simp only [List.mem_append, List.mem_singleton, AList.mem_insert, hv.2 j]
    exact or_comm

theorem Valid.evict {d : AList fun _ : K => V} {first : K} {rest : List K}
    (hv : Valid ⟨d, first :: rest⟩) {key : K} (hk : key ∉ d) (item : V) :
    Valid ⟨(d.erase first).insert key item, rest ++ [key]⟩ := by
  have hnd := List.nodup_cons.mp hv.1
  refine ⟨List.nodup_append.mpr ⟨hnd.2, List.nodup_singleton _, ?_⟩, fun j => ?_⟩
  · exact List.disjoint_singleton.mpr fun h => hk ((hv.2 key).mp (List.mem_cons_of_mem _ h))
  · simp only [List.mem_append, List.mem_singleton, AList.mem_insert, AList.mem_erase]
    rw [or_comm, ← hv.2 j, List.mem_cons]
    constructor
    · rintro (rfl | h)
      · exact .inl rfl
      · exact .inr ⟨fun he => hnd.1 (he ▸ h), .inr h⟩
    · rintro (rfl | ⟨hne, rfl | h⟩)
      · exact .inl rfl
      · exact absurd rfl hne
      · exact .inr h

theorem Valid.length_eq {c : FifoReference K V} (hv : c.Valid) :
    c.queue.length = c.data.keys.length :=
  ((List.perm_ext_iff_of_nodup hv.1 c.data.keys_nodup).mpr
    fun k => (hv.2 k).trans AList.mem_keys.symm).length_eq

end FifoReference

namespace FIFOCache

def reply (maxItems : ℕ) (c : FIFOCache K V) : Call K V → Reply K V
  | .put key item => .put (c.put maxItems key item).discarded (c.put maxItems key item).raised
  | .get key => .got (c.get key)

def replies (maxItems : ℕ) (c : FIFOCache K V) : List (Call K V) → List (Reply K V)
  | [] => []
  | call :: calls => c.reply maxItems call :: replies maxItems (c.step maxItems call) calls

def toReference (c : FIFOCache K V) : FifoReference K V := ⟨c.cacheData, c.order⟩

def Overwrites (c : FIFOCache K V) : Call K V → Prop
  | .put (some key) (some _) => key ∈ c.cacheData
  | _ => False

instance decidableOverwrites (c : FIFOCache K V) :
    (call : Call K V) → Decidable (c.Overwrites call)
  | .put (some key) (some _) => inferInstanceAs (Decidable (key ∈ c.cacheData))
  | .put none _ => isFalse not_false
  | .put (some _) none => isFalse not_false
  | .get _ => isFalse not_false

def NoOverwrite (maxItems : ℕ) : FIFOCache K V → List (Call K V) → Prop
  | _, [] => True
  | c, call :: calls => ¬ c.Overwrites call ∧ NoOverwrite maxItems (c.step maxItems call) calls

instance decidableNoOverwrite (maxItems : ℕ) :
    (c : FIFOCache K V) → (calls : List (Call K V)) → Decidable (c.NoOverwrite maxItems calls)
  | _, [] => isTrue trivial
  | c, call :: calls =>
    have := decidableNoOverwrite maxItems (c.step maxItems call) calls
    inferInstanceAs (Decidable (¬ c.Overwrites call ∧ _))

theorem step_refines {maxItems : ℕ} (hmax : 0 < maxItems) {c : FIFOCache K V}
    (hv : c.toReference.Valid) (call : Call K V) (hno : ¬ c.Overwrites call) :
    c.reply maxItems call = (c.toReference.step maxItems call).2 ∧
      (c.step maxItems call).toReference = (c.toReference.step maxItems call).1 ∧
      (c.step maxItems call).toReference.Valid := by
  rcases call with ⟨_ | key, _ | item⟩ | key
  · exact ⟨rfl, rfl, hv⟩
  · exact ⟨rfl, rfl, hv⟩
  · exact ⟨rfl, rfl, hv⟩
  · replace hno : key ∉ c.cacheData := hno
    simp only [reply, step, put, FifoReference.step, FifoReference.put, toReference, hno,
      not_false_eq_true, and_true, if_false]
    split_ifs with hfull
    · cases horder : c.order with
      | nil =>
        obtain ⟨k, hk⟩ := List.exists_mem_of_length_pos (hmax.trans_le hfull)
        have := (hv.2 k).mpr (AList.mem_keys.mpr hk)
        simp [toReference, horder] at this
      | cons first rest =>
        have hfirst : first ∈ c.cacheData := (hv.2 first).mp (by simp [toReference, horder])
        simp only [hfirst, if_true, true_and]
        exact FifoReference.Valid.evict (horder ▸ hv) hno item
    · exact ⟨rfl, rfl, FifoReference.Valid.append hv hno item⟩
  · exact ⟨rfl, rfl, hv⟩

theorem replies_of_noOverwrite {maxItems : ℕ} (hmax : 0 < maxItems) (calls : List (Call K V)) :
    ∀ c : FIFOCache K V, c.toReference.Valid → c.NoOverwrite maxItems calls →
      c.replies maxItems calls = c.toReference.replies maxItems calls ∧
        (c.run maxItems calls).toReference = c.toReference.run maxItems calls ∧
        (c.run maxItems calls).toReference.Valid := by
  induction calls with
  | nil => exact fun c hv _ => ⟨rfl, rfl, hv⟩
  | cons call calls ih =>
    intro c hv hno
    obtain ⟨hreply, hstep, hvalid⟩ := step_refines hmax hv call hno.1
    obtain ⟨hrs, hrun, hv'⟩ := ih _ hvalid hno.2
    refine ⟨?_, ?_, hv'⟩
    · rw [replies, FifoReference.replies, hreply, hrs, hstep]
    · rw [run, FifoReference.run, hrun, hstep]

/-- From a fresh cache with `MAX_ITEMS ≥ 1`, on every run in which no put overwrites a present
key, `FIFOCache` gives the reference's replies (the items `get` returns, the keys `put`
discards, no exception), ends in the reference's state, and its `order` lists each key of
`cache_data` exactly once. -/
theorem run_refines_reference {maxItems : ℕ} (hmax : 0 < maxItems) (calls : List (Call K V))
    (hno : (init : FIFOCache K V).NoOverwrite maxItems calls) :
    (init : FIFOCache K V).replies maxItems calls = FifoReference.init.replies maxItems calls ∧
      ((init : FIFOCache K V).run maxItems calls).toReference =
        FifoReference.init.run maxItems calls ∧
      ((init : FIFOCache K V).run maxItems calls).toReference.Valid :=
  replies_of_noOverwrite hmax calls init FifoReference.valid_init hno

theorem run_refines_reference_evict :
    0 < 2 ∧ (init : FIFOCache ℕ ℕ).NoOverwrite 2
        [.put (some 0) (some 0), .put (some 1) (some 1), .get (some 0), .put (some 2) (some 2)] ∧
      ((init : FIFOCache ℕ ℕ).replies 2
          [.put (some 0) (some 0), .put (some 1) (some 1), .get (some 0), .put (some 2) (some 2)] =
        FifoReference.init.replies 2
          [.put (some 0) (some 0), .put (some 1) (some 1), .get (some 0), .put (some 2) (some 2)] ∧
      ((init : FIFOCache ℕ ℕ).run 2
          [.put (some 0) (some 0), .put (some 1) (some 1), .get (some 0), .put (some 2) (some 2)]
          ).toReference =
        FifoReference.init.run 2
          [.put (some 0) (some 0), .put (some 1) (some 1), .get (some 0), .put (some 2) (some 2)] ∧
      ((init : FIFOCache ℕ ℕ).run 2
          [.put (some 0) (some 0), .put (some 1) (some 1), .get (some 0), .put (some 2) (some 2)]
          ).toReference.Valid) :=
  ⟨by decide, by decide, run_refines_reference (by decide) _ (by decide)⟩

/-- An overwrite followed by evictions: with `MAX_ITEMS = 2`, after puts of keys
0, 1, 0, 2, 0, `FIFOCache` evicts key 0 where the reference evicts key 2, then key 2 where the
reference evicts key 0, and its last put prints `DISCARD: 0` and raises `KeyError` where the
reference evicts key 3. -/
theorem replies_overwrite_diverge :
    (init : FIFOCache ℕ ℕ).replies 2
        [.put (some 0) (some 0), .put (some 1) (some 1), .put (some 0) (some 2),
          .put (some 2) (some 2), .put (some 0) (some 0), .put (some 3) (some 3),
          .put (some 4) (some 4), .put (some 5) (some 5)] =
      [.put none none, .put none none, .put none none, .put (some 0) none, .put (some 1) none,
        .put (some 0) none, .put (some 2) none, .put (some 0) (some .keyError)] ∧
    FifoReference.init.replies 2
        [.put (some 0) (some 0), .put (some 1) (some 1), .put (some 0) (some 2),
          .put (some 2) (some 2), .put (some 0) (some 0), .put (some 3) (some 3),
          .put (some 4) (some 4), .put (some 5) (some 5)] =
      [.put none none, .put none none, .put none none, .put (some 0) none, .put (some 1) none,
        .put (some 2) none, .put (some 0) none, .put (some 3) none] := by
  decide

theorem run_append (maxItems : ℕ) (xs ys : List (Call K V)) :
    ∀ c : FIFOCache K V, c.run maxItems (xs ++ ys) = (c.run maxItems xs).run maxItems ys := by
  induction xs with
  | nil => exact fun c => rfl
  | cons call xs ih => exact fun c => ih _

theorem replies_append (maxItems : ℕ) (xs ys : List (Call K V)) :
    ∀ c : FIFOCache K V, c.replies maxItems (xs ++ ys) =
      c.replies maxItems xs ++ (c.run maxItems xs).replies maxItems ys := by
  induction xs with
  | nil => exact fun c => rfl
  | cons call xs ih => exact fun c => congrArg _ (ih _)

def putCalls (item : K → V) (ks : List K) : List (Call K V) :=
  ks.map fun k => .put (some k) (some (item k))

structure HoldsLast (maxItems : ℕ) (item : K → V) (ks : List K) (c : FIFOCache K V) : Prop where
  order_eq : c.order = ks.drop (ks.length - maxItems)
  lookup_eq : ∀ k, c.cacheData.lookup k =
    if k ∈ ks.drop (ks.length - maxItems) then some (item k) else none

theorem HoldsLast.mem_iff {maxItems : ℕ} {item : K → V} {ks : List K} {c : FIFOCache K V}
    (h : c.HoldsLast maxItems item ks) (k : K) :
    k ∈ c.cacheData ↔ k ∈ ks.drop (ks.length - maxItems) := by
  rw [← AList.lookup_isSome, h.lookup_eq]
  split_ifs with hk <;> simp [hk]

theorem HoldsLast.length_keys {maxItems : ℕ} {item : K → V} {ks : List K} {c : FIFOCache K V}
    (h : c.HoldsLast maxItems item ks) (hnd : ks.Nodup) :
    c.cacheData.keys.length = min ks.length maxItems := by
  have hv : c.toReference.Valid := by
    refine ⟨?_, fun j => ?_⟩
    · show c.order.Nodup
      rw [h.order_eq]
      exact hnd.sublist (List.drop_sublist _ _)
    · show j ∈ c.order ↔ j ∈ c.cacheData
      rw [h.order_eq, h.mem_iff]
  have := hv.length_eq
  simp only [toReference, h.order_eq, List.length_drop] at this
  omega

theorem HoldsLast.put {maxItems : ℕ} (hmax : 0 < maxItems) {item : K → V} {ks : List K}
    {key : K} (hks : (ks ++ [key]).Nodup) {c : FIFOCache K V} (h : c.HoldsLast maxItems item ks) :
    (c.put maxItems (some key) (some (item key))).cache.HoldsLast maxItems item (ks ++ [key]) ∧
      c.reply maxItems (.put (some key) (some (item key))) =
        .put (if maxItems ≤ ks.length then ks[ks.length - maxItems]? else none) none := by
  have hnd : ks.Nodup := hks.of_append_left
  have hkey : key ∉ ks := fun hk =>
    List.disjoint_of_nodup_append hks hk (List.mem_singleton_self _)
  have hnew : key ∉ c.cacheData := fun hk => hkey (List.mem_of_mem_drop ((h.mem_iff key).mp hk))
  have hlen := h.length_keys hnd
  have hsnoc : (ks ++ [key]).length - maxItems = ks.length + 1 - maxItems := by simp
  by_cases hfull : maxItems ≤ ks.length
  · have hlt : ks.length - maxItems < ks.length := by omega
    have hord := h.order_eq
    rw [List.drop_eq_getElem_cons hlt] at hord
    have hnd' : ks[ks.length - maxItems] ∉ ks.drop (ks.length - maxItems + 1) := by
      have := hnd.sublist (List.drop_sublist (ks.length - maxItems) ks)
      rw [List.drop_eq_getElem_cons hlt] at this
      exact (List.nodup_cons.mp this).1
    have hfirst : ks[ks.length - maxItems] ∈ c.cacheData :=
      (h.mem_iff _).mpr (by rw [List.drop_eq_getElem_cons hlt]; exact List.mem_cons_self _ _)
    have hdrop : (ks ++ [key]).drop ((ks ++ [key]).length - maxItems) =
        ks.drop (ks.length - maxItems + 1) ++ [key] := by
      rw [hsnoc, show ks.length + 1 - maxItems = ks.length - maxItems + 1 by omega,
        List.drop_append_of_le_length hlt]
    have hcap : maxItems ≤ c.cacheData.keys.length := by omega
    simp only [FIFOCache.put, reply, hnew, hord, hfirst, hcap, not_false_eq_true, and_self,
      if_true, hfull, List.getElem?_eq_getElem hlt, and_true]
    refine ⟨by rw [hdrop], fun j => ?_⟩
    simp only [hdrop, List.mem_append, List.mem_singleton]
    by_cases hj : j = key
    · subst hj; simp
    rw [AList.lookup_insert_ne hj]
    by_cases hj' : j = ks[ks.length - maxItems]
    · subst hj'; simp [hj, hnd']
    rw [AList.lookup_erase_ne hj', h.lookup_eq]
    simp only [List.drop_eq_getElem_cons hlt, List.mem_cons, hj, hj', false_or, or_false]
  · have h0 : ks.length - maxItems = 0 := by omega
    have hdrop : (ks ++ [key]).drop ((ks ++ [key]).length - maxItems) = ks ++ [key] := by
      rw [hsnoc, show ks.length + 1 - maxItems = 0 by omega, List.drop_zero]
    have hroom : ¬ maxItems ≤ c.cacheData.keys.length := by omega
    simp only [FIFOCache.put, reply, hroom, hfull, false_and, if_false, and_true]
    refine ⟨by rw [hdrop, h.order_eq, h0, List.drop_zero], fun j => ?_⟩
    simp only [hdrop, List.mem_append, List.mem_singleton]
    by_cases hj : j = key
    · subst hj; simp
    rw [AList.lookup_insert_ne hj, h.lookup_eq, h0, List.drop_zero]
    simp [hj]

/-- FIFO eviction of distinct keys: after putting the distinct keys `ks` into a fresh cache
with `MAX_ITEMS ≥ 1`, `order` holds the last `MAX_ITEMS` of them, `get` returns the item of
exactly these, and the first `MAX_ITEMS` puts evict nothing while each later one prints the
keys of `ks` in order, from the first. -/
theorem run_putCalls_distinct {maxItems : ℕ} (hmax : 0 < maxItems) (item : K → V) (ks : List K)
    (hks : ks.Nodup) :
    ((init : FIFOCache K V).run maxItems (putCalls item ks)).order =
        ks.drop (ks.length - maxItems) ∧
      (∀ k, ((init : FIFOCache K V).run maxItems (putCalls item ks)).get (some k) =
        if k ∈ ks.drop (ks.length - maxItems) then some (item k) else none) ∧
      (init : FIFOCache K V).replies maxItems (putCalls item ks) =
        List.replicate (min ks.length maxItems) (.put none none) ++
          (ks.take (ks.length - maxItems)).map fun k => .put (some k) none := by
  suffices ((init : FIFOCache K V).run maxItems (putCalls item ks)).HoldsLast maxItems item ks ∧
      (init : FIFOCache K V).replies maxItems (putCalls item ks) =
        List.replicate (min ks.length maxItems) (.put none none) ++
          (ks.take (ks.length - maxItems)).map fun k => .put (some k) none from
    ⟨this.1.order_eq, this.1.lookup_eq, this.2⟩
  induction ks using List.reverseRecOn with
  | nil =>
    exact ⟨⟨List.drop_nil.symm, fun k => by simp [putCalls, run, init]⟩,
      by simp [putCalls, replies]⟩
  | append_singleton ks key ih =>
    obtain ⟨hrun, hrep⟩ := ih hks.of_append_left
    obtain ⟨hput, hreply⟩ := hrun.put hmax hks
    refine ⟨?_, ?_⟩
    · rw [putCalls, List.map_append, run_append]
      exact hput
    · rw [putCalls, List.map_append, replies_append, ← putCalls, hrep]
      simp only [List.map_cons, List.map_nil, replies, hreply, List.length_append,
        List.length_singleton]
      by_cases hfull : maxItems ≤ ks.length
      · have hlt : ks.length - maxItems < ks.length := by omega
        rw [if_pos hfull, show (ks.length + 1) ⊓ maxItems = ks.length ⊓ maxItems by omega,
          show ks.length + 1 - maxItems = ks.length - maxItems + 1 by omega,
          List.take_append_of_le_length hlt, List.take_succ, List.getElem?_eq_getElem hlt]
        simp only [Option.toList_some, List.map_append, List.map_cons, List.map_nil,
          List.append_assoc]
      · rw [if_neg hfull, show (ks.length + 1) ⊓ maxItems = ks.length ⊓ maxItems + 1 by omega,
          show ks.length + 1 - maxItems = 0 by omega, show ks.length - maxItems = 0 by omega,
          List.replicate_succ']
        simp

theorem run_putCalls_distinct_three :
    0 < 2 ∧ ([0, 1, 2] : List ℕ).Nodup ∧
      ((init : FIFOCache ℕ ℕ).run 2 (putCalls id [0, 1, 2])).order = [0, 1, 2].drop (3 - 2) ∧
      (∀ k, ((init : FIFOCache ℕ ℕ).run 2 (putCalls id [0, 1, 2])).get (some k) =
        if k ∈ [0, 1, 2].drop (3 - 2) then some (id k) else none) ∧
      (init : FIFOCache ℕ ℕ).replies 2 (putCalls id [0, 1, 2]) =
        List.replicate (min 3 2) (.put none none) ++
          ([0, 1, 2].take (3 - 2)).map fun k => .put (some k) none :=
  ⟨by decide, by decide, run_putCalls_distinct (by decide) id [0, 1, 2] (by decide)⟩

end FIFOCache

end AlxBackend.Caching
