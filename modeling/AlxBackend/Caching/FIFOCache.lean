import AlxBackend.Caching.BasicCache

/-! `0x01-caching/1-fifo_cache.py`: a cache of at most `BaseCaching.MAX_ITEMS` items that
evicts the head of its list `order`. Every put of a new key appends it to `order`, and so does
every overwrite of a present key: the key then stands twice in `order`, and once its first
copy has been evicted the second one is evicted in another key's place or, when it reaches the
head of `order` after its key is gone, makes `del self.cache_data[self.order[0]]` raise
`KeyError`. The capacity bound and `put`'s error behaviour hold on every run all the same. -/

namespace AlxBackend.Caching
open Python

variable {K V : Type} [DecidableEq K]

/-- A `FIFOCache`: the dictionary of `BaseCaching` and the list `order`. -/
structure FIFOCache (K V : Type) [DecidableEq K] where
  cacheData : AList fun _ : K => V
  order : List K

structure PutResult (K V : Type) [DecidableEq K] where
  cache : FIFOCache K V
  discarded : Option K
  raised : Option PyError

namespace FIFOCache

/-- Modelled from the spec: `BaseCaching.__init__` (in the missing `base_caching.py`) starts
`cache_data` empty; `FIFOCache.__init__` sets `order = []`. -/
def init : FIFOCache K V := ⟨∅, []⟩

/-- `FIFOCache.put` with `BaseCaching.MAX_ITEMS = maxItems`. At capacity, a new key first
prints `order[0]` (`IndexError` on an empty `order`), then deletes it from `cache_data`
(`KeyError` if absent, before anything changed) and from `order`. -/
def put (maxItems : ℕ) (c : FIFOCache K V) : Option K → Option V → PutResult K V
  | some key, some item =>
    if maxItems ≤ c.cacheData.keys.length ∧ key ∉ c.cacheData then
      match c.order with
      | [] => ⟨c, none, some .indexError⟩
      | first :: rest =>
        if first ∈ c.cacheData then
          ⟨⟨(c.cacheData.erase first).insert key item, rest ++ [key]⟩, some first, none⟩
        else ⟨c, some first, some .keyError⟩
    else ⟨⟨c.cacheData.insert key item, c.order ++ [key]⟩, none, none⟩
  | _, _ => ⟨c, none, none⟩

/-- `FIFOCache.get`. -/
def get (c : FIFOCache K V) (key : Option K) : Option V :=
  cacheGet c.cacheData key

def step (maxItems : ℕ) (c : FIFOCache K V) : Call K V → FIFOCache K V
  | .put key item => (c.put maxItems key item).cache
  | .get _ => c

def run (maxItems : ℕ) (c : FIFOCache K V) : List (Call K V) → FIFOCache K V
  | [] => c
  | call :: calls => run maxItems (c.step maxItems call) calls

end FIFOCache

theorem AList.length_keys_insert_of_mem {s : AList fun _ : K => V} {k : K} (v : V) (h : k ∈ s) :
    (s.insert k v).keys.length = s.keys.length := by
  rw [AList.keys_insert, List.length_cons, List.length_erase_of_mem (AList.mem_keys.mp h)]
  have := List.length_pos_of_mem (AList.mem_keys.mp h)
  omega

theorem AList.length_keys_insert_of_not_mem {s : AList fun _ : K => V} {k : K} (v : V)
    (h : k ∉ s) : (s.insert k v).keys.length = s.keys.length + 1 := by
  rw [AList.keys_insert, List.length_cons, List.erase_of_not_mem (mt AList.mem_keys.mpr h)]

theorem AList.length_keys_erase_of_mem {s : AList fun _ : K => V} {k : K} (h : k ∈ s) :
    (s.erase k).keys.length = s.keys.length - 1 := by
  rw [AList.keys_erase, List.length_erase_of_mem (AList.mem_keys.mp h)]

namespace FIFOCache

theorem put_length_le {maxItems : ℕ} {c : FIFOCache K V} (key : Option K) (item : Option V)
    (h : c.cacheData.keys.length ≤ maxItems) :
    (c.put maxItems key item).cache.cacheData.keys.length ≤ maxItems := by
  rcases key with _ | key <;> rcases item with _ | item <;> simp only [put] <;> try exact h
  split_ifs with hfull
  · cases c.order with
    | nil => exact h
    | cons first rest =>
      dsimp only
      split_ifs with hfirst
      · have hk : key ∉ c.cacheData.erase first := fun hk => hfull.2 (AList.mem_erase.mp hk).2
        rw [AList.length_keys_insert_of_not_mem _ hk, AList.length_keys_erase_of_mem hfirst]
        have := List.length_pos_of_mem (AList.mem_keys.mp hfirst)
        omega
      · exact h
  · by_cases hk : key ∈ c.cacheData
    · rwa [AList.length_keys_insert_of_mem _ hk]
    · rw [AList.length_keys_insert_of_not_mem _ hk]
      have : c.cacheData.keys.length < maxItems := not_le.mp fun hc => hfull ⟨hc, hk⟩
      omega

/-- Capacity bound: from a fresh cache, every run keeps `len(cache_data) ≤ MAX_ITEMS`, after
puts that raise included. -/
theorem run_length_le (maxItems : ℕ) (calls : List (Call K V)) :
    ((init : FIFOCache K V).run maxItems calls).cacheData.keys.length ≤ maxItems := by
  suffices ∀ c : FIFOCache K V, c.cacheData.keys.length ≤ maxItems →
      (c.run maxItems calls).cacheData.keys.length ≤ maxItems from
    this init (Nat.zero_le _)
  induction calls with
  | nil => exact fun c h => h
  | cons call calls ih =>
    intro c h
    cases call with
    | put key item => exact ih _ (put_length_le key item h)
    | get key => exact ih c h

def KeysInOrder (c : FIFOCache K V) : Prop :=
  ∀ k, k ∈ c.cacheData → k ∈ c.order

theorem put_keysInOrder {maxItems : ℕ} {c : FIFOCache K V} (key : Option K) (item : Option V)
    (h : c.KeysInOrder) : (c.put maxItems key item).cache.KeysInOrder := by
  rcases key with _ | key <;> rcases item with _ | item <;> simp only [put] <;> try exact h
  split_ifs with hfull
  · split
    next => exact h
    next first rest hord =>
      split_ifs with hfirst
      · intro k hk
        rcases (AList.mem_insert _).mp hk with rfl | hk
        · exact List.mem_append_right _ (List.mem_singleton_self _)
        · obtain ⟨hne, hk⟩ := AList.mem_erase.mp hk
          have := hord ▸ h k hk
          exact List.mem_append_left _ ((List.mem_cons.mp this).resolve_left hne)
      · exact h
  · intro k hk
    rcases (AList.mem_insert _).mp hk with rfl | hk
    · exact List.mem_append_right _ (List.mem_singleton_self _)
    · exact List.mem_append_left _ (h k hk)

theorem run_keysInOrder (maxItems : ℕ) (calls : List (Call K V)) :
    ∀ c : FIFOCache K V, c.KeysInOrder → (c.run maxItems calls).KeysInOrder := by
  induction calls with
  | nil => exact fun c h => h
  | cons call calls ih =>
    intro c h
    cases call with
    | put key item => exact ih _ (put_keysInOrder key item h)
    | get key => exact ih c h

theorem put_raises_keyError {maxItems : ℕ} (hmax : 0 < maxItems) {c : FIFOCache K V}
    (h : c.KeysInOrder) (key : Option K) (item : Option V) :
    (c.put maxItems key item).raised = none ∨
      ((c.put maxItems key item).raised = some .keyError ∧ (c.put maxItems key item).cache = c) := by
  rcases key with _ | key <;> rcases item with _ | item <;> simp only [put, true_or]
  split_ifs with hfull
  · split
    next hord =>
      obtain ⟨k, hk⟩ := List.exists_mem_of_length_pos (hmax.trans_le hfull.1)
      exact absurd (hord ▸ h k (AList.mem_keys.mpr hk)) (List.not_mem_nil k)
    next first rest hord =>
      split_ifs
      · exact .inl rfl
      · exact .inr ⟨rfl, rfl⟩
  · exact .inl rfl

/-- On every run from a fresh cache with `MAX_ITEMS ≥ 1`, the next `put` returns normally or
raises `KeyError` and leaves `cache_data` and `order` unchanged; it never raises
`IndexError`. -/
theorem run_put_raises_keyError {maxItems : ℕ} (hmax : 0 < maxItems) (calls : List (Call K V))
    (key : Option K) (item : Option V) :
    (((init : FIFOCache K V).run maxItems calls).put maxItems key item).raised = none ∨
      ((((init : FIFOCache K V).run maxItems calls).put maxItems key item).raised =
          some .keyError ∧
        (((init : FIFOCache K V).run maxItems calls).put maxItems key item).cache =
          (init : FIFOCache K V).run maxItems calls) :=
  put_raises_keyError hmax
    (run_keysInOrder maxItems calls init fun _ h => absurd h (AList.not_mem_empty _)) key item

theorem run_put_raises_keyError_evict :
    0 < 2 ∧ ((((init : FIFOCache ℕ ℕ).run 2 [.put (some 0) (some 0), .put (some 1) (some 1),
        .put (some 0) (some 2), .put (some 2) (some 2), .put (some 3) (some 3)]).put 2 (some 4)
        (some 4)).raised = none ∨
      ((((init : FIFOCache ℕ ℕ).run 2 [.put (some 0) (some 0), .put (some 1) (some 1),
          .put (some 0) (some 2), .put (some 2) (some 2), .put (some 3) (some 3)]).put 2 (some 4)
          (some 4)).raised = some .keyError ∧
        (((init : FIFOCache ℕ ℕ).run 2 [.put (some 0) (some 0), .put (some 1) (some 1),
          .put (some 0) (some 2), .put (some 2) (some 2), .put (some 3) (some 3)]).put 2 (some 4)
          (some 4)).cache =
          (init : FIFOCache ℕ ℕ).run 2 [.put (some 0) (some 0), .put (some 1) (some 1),
            .put (some 0) (some 2), .put (some 2) (some 2), .put (some 3) (some 3)])) :=
  ⟨by decide, run_put_raises_keyError (by decide) [.put (some 0) (some 0), .put (some 1) (some 1),
    .put (some 0) (some 2), .put (some 2) (some 2), .put (some 3) (some 3)] (some 4) (some 4)⟩

/-- Overwriting a present key appends it again: after `put(0, 0)` and `put(0, 1)`, `order` is
`[0, 0]` while `cache_data` has the one key `0`. -/
theorem run_order_duplicate :
    ((init : FIFOCache ℕ ℕ).run 4 [.put (some 0) (some 0), .put (some 0) (some 1)]).order =
        [0, 0] ∧
      ((init : FIFOCache ℕ ℕ).run 4 [.put (some 0) (some 0), .put (some 0) (some 1)]).cacheData.keys =
        [0] := by
  decide

end FIFOCache

end AlxBackend.Caching
