import AlxBackend.Python.Basic
import Mathlib.Data.List.Forall2

/-! `0x00-pagination/3-hypermedia_del_pagination.py`: pages by start index over a snapshot of
the dataset indexed by position, from which positions may be deleted. The `while` loop skips
deleted positions, but it stops at `len(indexed_data)`, the number of positions still
present, rather than at the snapshot's length: once a position is gone, as many live rows at
the end of the data are out of reach. A negative `index` walks up through missing keys, so it
acts as `0`. -/

namespace AlxBackend.Pagination.HypermediaDelPagination

variable {α : Type}

/-- The dictionary `indexed_dataset` returns: `slots[p] = some r` while position `p` is a key,
mapping to row `r`, and `none` once it has been deleted. -/
structure IndexedData (α : Type) where
  slots : List (Option α)
  deriving DecidableEq, Repr

namespace IndexedData

/-- `len(indexed_data)`: the number of keys left. -/
def len (d : IndexedData α) : ℕ :=
  d.slots.countP (·.isSome)

/-- `indexed_data.get(i)`: `None` for a missing key, negative ones included. -/
def get (d : IndexedData α) (i : ℤ) : Option α :=
  if 0 ≤ i then (d.slots[i.toNat]?).join else none

/-- `indexed_data.pop(p, None)`: deleting a position that is already gone changes nothing. -/
def delete (d : IndexedData α) (p : ℕ) : IndexedData α :=
  ⟨d.slots.set p none⟩

def deleteAll (d : IndexedData α) (ps : List ℕ) : IndexedData α :=
  ps.foldl delete d

def rows (d : IndexedData α) (s e : ℕ) : List α :=
  (List.range' s (e - s)).filterMap fun p : ℕ => d.get p

@[simp] theorem get_natCast (d : IndexedData α) (p : ℕ) : d.get p = (d.slots[p]?).join := by
  rw [get, if_pos (Int.natCast_nonneg p), Int.toNat_natCast]

theorem rows_self (d : IndexedData α) (s : ℕ) : d.rows s s = [] := by
  simp [rows]

theorem rows_succ (d : IndexedData α) {s e : ℕ} (h : s ≤ e) :
    d.rows s (e + 1) = d.rows s e ++ (d.get e).toList := by
  rw [rows, rows, show e + 1 - s = e - s + 1 by omega, List.range'_1_concat, List.filterMap_append,
    show s + (e - s) = e by omega]
  congr 1

theorem rows_append (d : IndexedData α) {s e f : ℕ} (h1 : s ≤ e) (h2 : e ≤ f) :
    d.rows s f = d.rows s e ++ d.rows e f := by
  rw [rows, rows, rows, show f - s = f - e + (e - s) by omega, ← List.range'_append_1,
    List.filterMap_append, show s + (e - s) = e by omega]

theorem rows_of_le (d : IndexedData α) {s e : ℕ} (h : e ≤ s) : d.rows s e = [] := by
  simp [rows, Nat.sub_eq_zero_of_le h]

theorem length_rows_le (d : IndexedData α) (s e : ℕ) : (d.rows s e).length ≤ e - s :=
  (List.length_filterMap_le _ _).trans (List.length_range' _ _ _).le

end IndexedData

open IndexedData

/-- `record = indexed_data.get(current_index)`, appended unless it is `None`. -/
def appendRecord (data : List α) : Option α → List α
  | some record => data ++ [record]
  | none => data

theorem appendRecord_eq (data : List α) (o : Option α) :
    appendRecord data o = data ++ o.toList := by
  cases o <;> simp [appendRecord]

/-- The `while` loop of `get_hyper_index`, for at most `fuel` passes. -/
def collect (d : IndexedData α) (pageSize : ℤ) : ℕ → List α → ℤ → List α × ℤ
  | 0, data, cur => (data, cur)
  | fuel + 1, data, cur =>
    if (data.length : ℤ) < pageSize ∧ cur < d.len then
      collect d pageSize fuel (appendRecord data (d.get cur)) (cur + 1)
    else (data, cur)

/-- The dictionary `get_hyper_index` returns. -/
structure HyperIndex (α : Type) where
  index : Option ℤ
  nextIndex : Option ℤ
  pageSize : ℕ
  data : List α
  deriving DecidableEq, Repr

/-- `Server.get_hyper_index` on the cached dictionary. Each pass moves the cursor up by one
and the loop stops once it reaches `len(indexed_data)`, so `len(indexed_data) - index` passes
of fuel run it to its end. -/
def getHyperIndexOn (d : IndexedData α) (index : Option ℤ := none) (pageSize : ℤ := 10) :
    HyperIndex α :=
  let currentIndex := index.getD 0
  let (data, cur) := collect d pageSize (d.len - currentIndex).toNat [] currentIndex
  { index := index, nextIndex := if cur < d.len then some cur else none,
    pageSize := data.length, data := data }

/-- The server's cache: the rows `dataset()` loads, and `__indexed_dataset` once built. -/
structure Server (α : Type) where
  dataset : List α
  indexedCache : Option (IndexedData α)

/-- `Server.indexed_dataset`: built on first use as
`{i: dataset[i] for i in range(len(dataset))}`, then returned from the cache. -/
def Server.indexedDataset (srv : Server α) : IndexedData α × Server α :=
  match srv.indexedCache with
  | some d => (d, srv)
  | none =>
    (⟨srv.dataset.map some⟩, { srv with indexedCache := some ⟨srv.dataset.map some⟩ })

/-- `Server.get_hyper_index`. -/
def Server.getHyperIndex (srv : Server α) (index : Option ℤ := none) (pageSize : ℤ := 10) :
    HyperIndex α × Server α :=
  let (d, srv) := srv.indexedDataset
  (getHyperIndexOn d index pageSize, srv)

structure Walk (d : IndexedData α) (k s : ℕ) (data : List α) (cur : ℕ) : Prop where
  start_le : s ≤ cur
  cur_le : cur ≤ max s d.len
  rows_eq : data = d.rows s cur
  length_le : data.length ≤ k
  last_live : data.length = k → s < cur → (d.get (cur - 1 : ℕ)).isSome

theorem Walk.init (d : IndexedData α) (k s : ℕ) : Walk d k s [] s :=
  ⟨le_rfl, le_max_left _ _, (rows_self d s).symm, Nat.zero_le _,
    fun _ h => absurd h (lt_irrefl s)⟩

theorem Walk.step {d : IndexedData α} {k s : ℕ} {data : List α} {cur : ℕ}
    (hw : Walk d k s data cur) (hk : data.length < k) (hc : cur < d.len) :
    Walk d k s (appendRecord data (d.get cur)) (cur + 1) := by
  rw [appendRecord_eq]
  refine ⟨hw.start_le.trans (Nat.le_succ _), le_max_of_le_right hc, ?_, ?_, fun hlen _ => ?_⟩
  · rw [hw.rows_eq, rows_succ _ hw.start_le]
  · cases d.get cur <;> simp <;> omega
  · rw [Nat.add_sub_cancel]
    cases h : d.get cur
    · simp [h] at hlen; omega
    · rfl

theorem Walk.start_lt {d : IndexedData α} {k s : ℕ} {data : List α} {cur : ℕ}
    (hw : Walk d k s data cur) (hne : data ≠ []) : s < cur :=
  lt_of_le_of_ne hw.start_le fun h => hne (by rw [hw.rows_eq, h, rows_self])

theorem Walk.full_of_lt {d : IndexedData α} {k s e : ℕ} (hw : Walk d k s (d.rows s e) e)
    (hstop : k ≤ (d.rows s e).length ∨ d.len ≤ e) (hk : 0 < k) (hlt : e < d.len) :
    (d.rows s e).length = k ∧ s < e := by
  have hfull : (d.rows s e).length = k := by have := hw.length_le; omega
  exact ⟨hfull, hw.start_lt (List.ne_nil_of_length_pos (by omega))⟩

theorem collect_spec {d : IndexedData α} {k s : ℕ} :
    ∀ (fuel cur : ℕ) (data : List α), Walk d k s data cur → d.len ≤ cur + fuel →
      ∃ e : ℕ, collect d k fuel data cur = (d.rows s e, (e : ℤ)) ∧
        Walk d k s (d.rows s e) e ∧ (k ≤ (d.rows s e).length ∨ d.len ≤ e)
  | 0, cur, data, hw, hf =>
    ⟨cur, by rw [collect, hw.rows_eq], hw.rows_eq ▸ hw, .inr (by omega)⟩
  | fuel + 1, cur, data, hw, hf => by
    rw [collect]
    by_cases hcond : (data.length : ℤ) < k ∧ (cur : ℤ) < d.len
    · rw [if_pos hcond, show (cur : ℤ) + 1 = ((cur + 1 : ℕ) : ℤ) by push_cast; rfl]
      exact collect_spec fuel (cur + 1) _
        (hw.step (by exact_mod_cast hcond.1) (by exact_mod_cast hcond.2)) (by omega)
    · rw [if_neg hcond]
      refine ⟨cur, by rw [hw.rows_eq], hw.rows_eq ▸ hw, ?_⟩
      rw [← hw.rows_eq]
      omega

theorem getHyperIndexOn_eq (d : IndexedData α) {index : Option ℤ} {s : ℕ}
    (hs : index.getD 0 = s) (k : ℕ) :
    ∃ e : ℕ, Walk d k s (d.rows s e) e ∧ (k ≤ (d.rows s e).length ∨ d.len ≤ e) ∧
      getHyperIndexOn d index k =
        { index := index, nextIndex := if (e : ℤ) < d.len then some (e : ℤ) else none,
          pageSize := (d.rows s e).length, data := d.rows s e } := by
  obtain ⟨e, he, hw, hstop⟩ := collect_spec (d.len - s) s [] (Walk.init d k s) (by omega)
  refine ⟨e, hw, hstop, ?_⟩
  simp only [getHyperIndexOn, hs, show ((d.len : ℤ) - s).toNat = d.len - s by omega, he]

theorem getHyperIndexOn_cursor (d : IndexedData α) {index : Option ℤ} {s : ℕ}
    (hs : index.getD 0 = s) {k : ℕ} (hk : 0 < k) :
    ∃ e : ℕ, s ≤ e ∧ (getHyperIndexOn d index k).data = d.rows s e ∧
      ((getHyperIndexOn d index k).nextIndex = none ∧ d.len ≤ e ∨
        (getHyperIndexOn d index k).nextIndex = some (e : ℤ) ∧ s < e ∧ e < d.len) := by
  obtain ⟨e, hw, hstop, hr⟩ := getHyperIndexOn_eq d hs k
  refine ⟨e, hw.start_le, by rw [hr], ?_⟩
  rw [hr]
  dsimp only
  split_ifs with hlt
  · exact .inr ⟨rfl, (hw.full_of_lt hstop hk (by exact_mod_cast hlt)).2, by exact_mod_cast hlt⟩
  · exact .inl ⟨rfl, by exact_mod_cast not_lt.mp hlt⟩

theorem collect_neg (d : IndexedData α) {k : ℤ} (hk : 0 < k) (fuel : ℕ) :
    ∀ n : ℕ, collect d k (fuel + n) [] (-(n : ℤ)) = collect d k fuel [] 0
  | 0 => by simp
  | n + 1 => by
    have hlen : -((n + 1 : ℕ) : ℤ) < d.len := by omega
    have hget : d.get (-((n + 1 : ℕ) : ℤ)) = none := by rw [IndexedData.get, if_neg (by omega)]
    rw [← Nat.add_assoc, collect, if_pos ⟨by simpa using hk, hlen⟩, hget, appendRecord,
      show -((n + 1 : ℕ) : ℤ) + 1 = -(n : ℤ) by omega]
    exact collect_neg d hk fuel n

/-- A negative `index` is not counted from the end: `get_hyper_index(index, page_size)`
returns what `get_hyper_index(0, page_size)` returns, `index` apart. -/
theorem getHyperIndexOn_of_neg (d : IndexedData α) {i : ℤ} (hi : i < 0) {k : ℤ} (hk : 0 < k) :
    getHyperIndexOn d (some i) k = { getHyperIndexOn d (some 0) k with index := some i } := by
  obtain ⟨n, rfl⟩ : ∃ n : ℕ, i = -(n : ℤ) := ⟨i.natAbs, by omega⟩
  have hfuel : ((d.len : ℤ) - -(n : ℤ)).toNat = d.len + n := by omega
  simp only [getHyperIndexOn, Option.getD_some, hfuel, collect_neg d hk, sub_zero,
    Int.toNat_natCast]

theorem getHyperIndexOn_of_neg_gap :
    (-2 : ℤ) < 0 ∧ (0 : ℤ) < 2 ∧
      getHyperIndexOn (⟨[none, some 1, some 2]⟩ : IndexedData ℕ) (some (-2)) 2 =
        { getHyperIndexOn (⟨[none, some 1, some 2]⟩ : IndexedData ℕ) (some 0) 2 with
          index := some (-2) } :=
  ⟨by decide, by decide, getHyperIndexOn_of_neg _ (by decide) (by decide)⟩

/-- With position `0` of three deleted, page `0` of size `2` stops at `len(indexed_data) = 2`
and returns only row `1`, although row `2` is still there: the page is short and says there
is no next page. -/
theorem getHyperIndex_tail_lost :
    (Server.getHyperIndex ⟨[0, 1, 2], some ⟨[none, some 1, some 2]⟩⟩ (some 0) 2).1 =
      { index := some 0, nextIndex := none, pageSize := 1, data := [1] } := by
  decide

end AlxBackend.Pagination.HypermediaDelPagination
