import AlxBackend.Caching.FIFOReference
import Mathlib.Data.Finset.Card

/-! Whole-run facts about `FIFOCache`, most of them against `BasicCache`. Below capacity it is
a `BasicCache`: when no more than `MAX_ITEMS` distinct keys are ever put, it answers every call
as `BasicCache` does. On every run it serves no stale item: `get` misses or agrees with
`BasicCache`. Past its first `KeyError` it is wedged: the head of `order` names a key that is
gone, nothing removes it, and every later put of a new key raises again. `order` keeps one
stale entry per overwrite. -/

namespace AlxBackend.Caching
open Python

variable {K V : Type} [DecidableEq K]

theorem AList.toFinset_keys_insert (s : AList fun _ : K => V) (k : K) (v : V) :
    (s.insert k v).keys.toFinset = insert k s.keys.toFinset := by
  ext j
  simp only [List.mem_toFinset, ← AList.mem_keys, AList.mem_insert, Finset.mem_insert]

namespace BasicCache

def step (c : BasicCache K V) : Call K V → BasicCache K V
  | .put key item => c.put key item
  | .get _ => c

theorem run_cons (c : BasicCache K V) (call : Call K V) (calls : List (Call K V)) :
    c.run (call :: calls) = (c.step call).run calls := by
  cases call <;> rfl

def reply (c : BasicCache K V) : Call K V → Reply K V
  | .put _ _ => .put none none
  | .get key => .got (c.get key)

def replies (c : BasicCache K V) : List (Call K V) → List (Reply K V)
  | [] => []
  | call :: calls => c.reply call :: replies (c.step call) calls

end BasicCache

def putKeys : List (Call K V) → List K
  | [] => []
  | .put (some key) (some _) :: calls => key :: putKeys calls
  | _ :: calls => putKeys calls

namespace FIFOCache

theorem step_basicCache {maxItems : ℕ} {c : FIFOCache K V} {b : BasicCache K V}
    (hd : c.cacheData = b.cacheData) (call : Call K V) (calls : List (Call K V))
    (hroom : (c.cacheData.keys.toFinset ∪ (putKeys (call :: calls)).toFinset).card ≤ maxItems) :
    c.reply maxItems call = b.reply call ∧
      (c.step maxItems call).cacheData = (b.step call).cacheData ∧
      ((c.step maxItems call).cacheData.keys.toFinset ∪ (putKeys calls).toFinset).card ≤
        maxItems := by
  rcases call with ⟨_ | key, _ | item⟩ | key <;> try exact ⟨rfl, hd, hroom⟩
  · have hsub : insert key c.cacheData.keys.toFinset ∪ (putKeys calls).toFinset =
        c.cacheData.keys.toFinset ∪
          (putKeys (.put (some key) (some item) :: calls)).toFinset := by
      rw [putKeys, List.toFinset_cons, Finset.insert_union, Finset.union_insert]
    have hnew : ¬ (maxItems ≤ c.cacheData.keys.length ∧ key ∉ c.cacheData) := by
      rintro ⟨hfull, hk⟩
      have hk' : key ∉ c.cacheData.keys.toFinset := by
        rwa [List.mem_toFinset, ← AList.mem_keys]
      have hle : (insert key c.cacheData.keys.toFinset).card ≤
          (insert key c.cacheData.keys.toFinset ∪ (putKeys calls).toFinset).card :=
        Finset.card_le_card Finset.subset_union_left
      rw [hsub, Finset.card_insert_of_not_mem hk',
        List.toFinset_card_of_nodup c.cacheData.keys_nodup] at hle
      omega
    simp only [reply, BasicCache.reply, step, BasicCache.step, put, BasicCache.put, hnew,
      if_false, AList.toFinset_keys_insert, hsub, hroom, and_true, true_and]
    rw [hd]
  · exact ⟨by rw [reply, BasicCache.reply, get, BasicCache.get, hd], hd, hroom⟩

theorem replies_basicCache {maxItems : ℕ} (calls : List (Call K V)) :
    ∀ (c : FIFOCache K V) (b : BasicCache K V), c.cacheData = b.cacheData →
      (c.cacheData.keys.toFinset ∪ (putKeys calls).toFinset).card ≤ maxItems →
      c.replies maxItems calls = b.replies calls ∧
        (c.run maxItems calls).cacheData = (b.run calls).cacheData := by
  induction calls with
  | nil => exact fun c b hd _ => ⟨rfl, hd⟩
  | cons call calls ih =>
    intro c b hd hroom
    obtain ⟨hreply, hd', hroom'⟩ := step_basicCache hd call calls hroom
    obtain ⟨hrs, hrun⟩ := ih _ _ hd' hroom'
    exact ⟨by rw [replies, BasicCache.replies, hreply, hrs],
      by rw [run, BasicCache.run_cons, hrun]⟩

/-- From fresh caches, when the puts store at most `MAX_ITEMS` distinct keys, `FIFOCache`
answers every call exactly as `BasicCache` does and ends with the same dictionary. -/
theorem run_below_capacity_basicCache {maxItems : ℕ} (calls : List (Call K V))
    (hroom : (putKeys calls).toFinset.card ≤ maxItems) :
    (init : FIFOCache K V).replies maxItems calls = BasicCache.init.replies calls ∧
      ((init : FIFOCache K V).run maxItems calls).cacheData =
        (BasicCache.init.run calls).cacheData :=
  replies_basicCache calls init BasicCache.init rfl (by simpa [init] using hroom)

theorem run_below_capacity_basicCache_two :
    (putKeys ([.put (some 0) (some 0), .put (some 1) (some 1), .put (some 0) (some 5),
        .get (some 0)] : List (Call ℕ ℕ))).toFinset.card ≤ 2 ∧
      (init : FIFOCache ℕ ℕ).replies 2 [.put (some 0) (some 0), .put (some 1) (some 1),
          .put (some 0) (some 5), .get (some 0)] =
        BasicCache.init.replies [.put (some 0) (some 0), .put (some 1) (some 1),
          .put (some 0) (some 5), .get (some 0)] ∧
      ((init : FIFOCache ℕ ℕ).run 2 [.put (some 0) (some 0), .put (some 1) (some 1),
          .put (some 0) (some 5), .get (some 0)]).cacheData =
        (BasicCache.init.run [.put (some 0) (some 0), .put (some 1) (some 1),
          .put (some 0) (some 5), .get (some 0)]).cacheData :=
  ⟨by decide, run_below_capacity_basicCache _ (by decide)⟩

def NoStale (c : FIFOCache K V) (b : BasicCache K V) : Prop :=
  ∀ k, c.cacheData.lookup k = none ∨ c.cacheData.lookup k = b.cacheData.lookup k

theorem NoStale.step {maxItems : ℕ} {c : FIFOCache K V} {b : BasicCache K V}
    (h : c.NoStale b) (call : Call K V) : (c.step maxItems call).NoStale (b.step call) := by
  rcases call with ⟨_ | key, _ | item⟩ | key <;> try exact h
  intro j
  by_cases hj : j = key
  · subst hj
    simp only [FIFOCache.step, BasicCache.step, put, BasicCache.put, AList.lookup_insert]
    split_ifs with hfull
    · split
      next => exact .inl (AList.lookup_eq_none.mpr hfull.2)
      next first rest hord =>
        split_ifs
        · exact .inr (by rw [AList.lookup_insert])
        · exact .inl (AList.lookup_eq_none.mpr hfull.2)
    · exact .inr (by rw [AList.lookup_insert])
  · simp only [FIFOCache.step, BasicCache.step, put, BasicCache.put,
      AList.lookup_insert_ne hj]
    split_ifs with hfull
    · split
      next => exact h j
      next first rest hord =>
        split_ifs
        · rw [AList.lookup_insert_ne hj]
          by_cases hf : j = first
          · exact .inl (by rw [hf, AList.lookup_erase])
          · rw [AList.lookup_erase_ne hf]
            exact h j
        · exact h j
    · rw [AList.lookup_insert_ne hj]
      exact h j

/-- `FIFOCache` never serves a stale item: on every run from a fresh cache, whatever it
evicted or raised, `get(key)` returns `None` or what `BasicCache.get(key)` returns after the
same calls, the item of the last put under `key`. -/
theorem run_get_not_stale (maxItems : ℕ) (calls : List (Call K V)) (key : K) :
    ((init : FIFOCache K V).run maxItems calls).get (some key) = none ∨
      ((init : FIFOCache K V).run maxItems calls).get (some key) =
        (BasicCache.init.run calls).get (some key) := by
  suffices ∀ (c : FIFOCache K V) (b : BasicCache K V), c.NoStale b →
      (c.run maxItems calls).NoStale (b.run calls) from
    this init BasicCache.init (fun _ => .inl rfl) key
  induction calls with
  | nil => exact fun _ _ h => h
  | cons call calls ih =>
    intro c b h
    rw [run, BasicCache.run_cons]
    exact ih _ _ (h.step call)

structure Wedged (maxItems : ℕ) (c : FIFOCache K V) : Prop where
  full : maxItems ≤ c.cacheData.keys.length
  stale : ∃ first rest, c.order = first :: rest ∧ first ∉ c.cacheData

theorem wedged_of_raises_keyError {maxItems : ℕ} {c : FIFOCache K V} {key : Option K}
    {item : Option V} (h : (c.put maxItems key item).raised = some .keyError) :
    c.Wedged maxItems := by
  rcases key with _ | key <;> rcases item with _ | item <;> simp only [put] at h <;>
    try contradiction
  split_ifs at h with hfull
  · split at h
    next => simp at h
    next first rest hord =>
      split_ifs at h with hfirst
      exact ⟨hfull.1, first, rest, hord, hfirst⟩

theorem Wedged.step {maxItems : ℕ} {c : FIFOCache K V} (h : c.Wedged maxItems)
    (call : Call K V) :
    (c.step maxItems call).Wedged maxItems ∧
      (c.step maxItems call).order.head? = c.order.head? ∧
      ∀ k, k ∈ (c.step maxItems call).cacheData ↔ k ∈ c.cacheData := by
  obtain ⟨hfull, first, rest, hord, hfirst⟩ := h
  rcases call with ⟨_ | key, _ | item⟩ | key <;>
    try exact ⟨⟨hfull, first, rest, hord, hfirst⟩, rfl, fun _ => Iff.rfl⟩
  · by_cases hk : key ∈ c.cacheData
    · have hmem : ∀ j, j ∈ c.cacheData.insert key item ↔ j ∈ c.cacheData := fun j => by
        rw [AList.mem_insert]
        exact ⟨fun hj => hj.elim (· ▸ hk) id, .inr⟩
      simp only [FIFOCache.step, put, hk, not_true_eq_false, and_false, if_false, hord]
      exact ⟨⟨by rwa [AList.length_keys_insert_of_mem _ hk], first, rest ++ [key], rfl,
        fun hj => hfirst ((hmem first).mp hj)⟩, rfl, hmem⟩
    · simp only [FIFOCache.step, put, hfull, hk, not_false_eq_true, and_self, if_true, hord,
        hfirst, if_false, and_true, implies_true]
      exact ⟨hfull, first, rest, hord, hfirst⟩

theorem Wedged.run {maxItems : ℕ} (calls : List (Call K V)) :
    ∀ c : FIFOCache K V, c.Wedged maxItems →
      (c.run maxItems calls).Wedged maxItems ∧
        (c.run maxItems calls).order.head? = c.order.head? ∧
        ∀ k, k ∈ (c.run maxItems calls).cacheData ↔ k ∈ c.cacheData := by
  induction calls with
  | nil => exact fun c h => ⟨h, rfl, fun _ => Iff.rfl⟩
  | cons call calls ih =>
    intro c h
    obtain ⟨hw, hhead, hmem⟩ := h.step call
    obtain ⟨hw', hhead', hmem'⟩ := ih _ hw
    exact ⟨hw', hhead'.trans hhead, fun k => (hmem' k).trans (hmem k)⟩

theorem Wedged.put_raises {maxItems : ℕ} {c : FIFOCache K V} (h : c.Wedged maxItems) {key : K}
    (hk : key ∉ c.cacheData) (item : V) :
    (c.put maxItems (some key) (some item)).discarded = c.order.head? ∧
      (c.put maxItems (some key) (some item)).raised = some .keyError := by
  obtain ⟨hfull, first, rest, hord, hfirst⟩ := h
  simp only [put, hfull, hk, not_false_eq_true, and_self, if_true, hord, hfirst, if_false,
    List.head?_cons, and_self]

/-- Once a put raises `KeyError`, the cache is wedged for good: whatever calls follow,
`cache_data` keeps the same keys, and every later put of a key outside them prints the same
stale `DISCARD` line and raises `KeyError` again. -/
theorem run_after_keyError_wedged {maxItems : ℕ} {c : FIFOCache K V} {key : Option K}
    {item : Option V} (hraise : (c.put maxItems key item).raised = some .keyError)
    (calls : List (Call K V)) :
    (∀ k, k ∈ (c.run maxItems calls).cacheData ↔ k ∈ c.cacheData) ∧
      ∀ (k : K) (v : V), k ∉ c.cacheData →
        ((c.run maxItems calls).put maxItems (some k) (some v)).discarded = c.order.head? ∧
        ((c.run maxItems calls).put maxItems (some k) (some v)).raised = some .keyError := by
  obtain ⟨hw, hhead, hmem⟩ := Wedged.run calls c (wedged_of_raises_keyError hraise)
  refine ⟨hmem, fun k v hk => ?_⟩
  rw [← hhead]
  exact hw.put_raises (fun hk' => hk ((hmem k).mp hk')) v

theorem run_after_keyError_wedged_evict :
    (((init : FIFOCache ℕ ℕ).run 2 [.put (some 0) (some 0), .put (some 1) (some 1),
        .put (some 0) (some 0), .put (some 2) (some 2), .put (some 3) (some 3)]).put 2
        (some 4) (some 4)).raised = some .keyError ∧
      (∀ k, k ∈ (((init : FIFOCache ℕ ℕ).run 2 [.put (some 0) (some 0), .put (some 1) (some 1),
          .put (some 0) (some 0), .put (some 2) (some 2), .put (some 3) (some 3)]).run 2
          [.put (some 2) (some 7), .get (some 3)]).cacheData ↔
        k ∈ ((init : FIFOCache ℕ ℕ).run 2 [.put (some 0) (some 0), .put (some 1) (some 1),
          .put (some 0) (some 0), .put (some 2) (some 2), .put (some 3) (some 3)]).cacheData) ∧
      ∀ (k : ℕ) (v : ℕ), k ∉ ((init : FIFOCache ℕ ℕ).run 2 [.put (some 0) (some 0),
          .put (some 1) (some 1), .put (some 0) (some 0), .put (some 2) (some 2),
          .put (some 3) (some 3)]).cacheData →
        ((((init : FIFOCache ℕ ℕ).run 2 [.put (some 0) (some 0), .put (some 1) (some 1),
            .put (some 0) (some 0), .put (some 2) (some 2), .put (some 3) (some 3)]).run 2
            [.put (some 2) (some 7), .get (some 3)]).put 2 (some k) (some v)).discarded =
          ((init : FIFOCache ℕ ℕ).run 2 [.put (some 0) (some 0), .put (some 1) (some 1),
            .put (some 0) (some 0), .put (some 2) (some 2), .put (some 3) (some 3)]).order.head? ∧
        ((((init : FIFOCache ℕ ℕ).run 2 [.put (some 0) (some 0), .put (some 1) (some 1),
            .put (some 0) (some 0), .put (some 2) (some 2), .put (some 3) (some 3)]).run 2
            [.put (some 2) (some 7), .get (some 3)]).put 2 (some k) (some v)).raised =
          some .keyError :=
  have hraise : (((init : FIFOCache ℕ ℕ).run 2 [.put (some 0) (some 0), .put (some 1) (some 1),
      .put (some 0) (some 0), .put (some 2) (some 2), .put (some 3) (some 3)]).put 2
      (some 4) (some 4)).raised = some .keyError := by decide
  ⟨hraise, run_after_keyError_wedged hraise [.put (some 2) (some 7), .get (some 3)]⟩

def overwrites (maxItems : ℕ) : FIFOCache K V → List (Call K V) → ℕ
  | _, [] => 0
  | c, call :: calls =>
    (if c.Overwrites call then 1 else 0) + overwrites maxItems (c.step maxItems call) calls

theorem step_order_length (maxItems : ℕ) (c : FIFOCache K V) (call : Call K V) :
    (c.step maxItems call).order.length + c.cacheData.keys.length =
      c.order.length + (c.step maxItems call).cacheData.keys.length +
        (if c.Overwrites call then 1 else 0) := by
  rcases call with ⟨_ | key, _ | item⟩ | key <;> try rfl
  · have hov : c.Overwrites (.put (some key) (some item)) ↔ key ∈ c.cacheData := Iff.rfl
    by_cases hk : key ∈ c.cacheData
    · simp only [FIFOCache.step, put, hov, hk, not_true_eq_false, and_false, if_false, if_true,
        List.length_append, List.length_singleton, AList.length_keys_insert_of_mem _ hk]
      omega
    by_cases hfull : maxItems ≤ c.cacheData.keys.length
    · simp only [FIFOCache.step, put, hov, hk, hfull, not_false_eq_true, and_self, if_true,
        if_false, add_zero]
      split
      next => rfl
      next first rest hord =>
        split_ifs with hfirst
        · have hk' : key ∉ c.cacheData.erase first := fun h => hk (AList.mem_erase.mp h).2
          have := List.length_pos_of_mem (AList.mem_keys.mp hfirst)
          rw [List.length_append, List.length_singleton, hord, List.length_cons,
            AList.length_keys_insert_of_not_mem _ hk', AList.length_keys_erase_of_mem hfirst]
          omega
        · rfl
    · simp only [FIFOCache.step, put, hov, hk, hfull, false_and, if_false, add_zero,
        List.length_append, List.length_singleton, AList.length_keys_insert_of_not_mem _ hk]
      omega

/-- `order` leaks one entry per overwrite: on every run from a fresh cache, `len(order)` is the
number of keys in `cache_data` plus the number of puts that overwrote a present key, however
many evictions and exceptions the run had. -/
theorem run_order_length (maxItems : ℕ) (calls : List (Call K V)) :
    ((init : FIFOCache K V).run maxItems calls).order.length =
      ((init : FIFOCache K V).run maxItems calls).cacheData.keys.length +
        (init : FIFOCache K V).overwrites maxItems calls := by
  suffices ∀ c : FIFOCache K V, (c.run maxItems calls).order.length + c.cacheData.keys.length =
      c.order.length + (c.run maxItems calls).cacheData.keys.length + c.overwrites maxItems calls by
    simpa [init] using this init
  induction calls with
  | nil => exact fun c => by simp [run, overwrites]
  | cons call calls ih =>
    intro c
    have hstep := step_order_length maxItems c call
    have hrun := ih (c.step maxItems call)
    simp only [run, overwrites] at hrun ⊢
    omega

end FIFOCache

end AlxBackend.Caching
