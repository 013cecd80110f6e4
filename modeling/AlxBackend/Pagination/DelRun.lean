import AlxBackend.Pagination.DelPagination

/-! `readAll`: a client of `get_hyper_index` that reads every page while positions are deleted
from the cached dictionary between its calls; `runOps`: any sequence of calls and deletions
(`Op`) on one server. Whatever is deleted, the client stops within
`len(dataset) + 1` calls and receives rows at strictly increasing positions; with nothing
deleted it receives the whole dataset, and with deletions made before its first call it
receives exactly the live rows below `len(indexed_data)`. With `page_size ≤ 0` it never
stops. Over any run of calls and deletions the cached dictionary stays what deletions leave
of the one snapshot (`SubSnapshot`, kept by `Server.Valid`), never rebuilt, so every page is
sorted and no deleted row comes back. -/

namespace AlxBackend.Pagination.HypermediaDelPagination
open IndexedData

variable {α : Type}

structure SubSnapshot (dataset : List α) (d : IndexedData α) : Prop where
  length_eq : d.slots.length = dataset.length
  get_eq : ∀ (p : ℕ) (r : α), d.get p = some r → dataset[p]? = some r

@[simp] theorem get_full (dataset : List α) (p : ℕ) :
    (⟨dataset.map some⟩ : IndexedData α).get p = dataset[p]? := by
  rw [get_natCast, List.getElem?_map]
  cases dataset[p]? <;> rfl

namespace SubSnapshot

theorem full (dataset : List α) : SubSnapshot dataset ⟨dataset.map some⟩ :=
  ⟨List.length_map _ _, fun p r h => by rwa [get_full] at h⟩

theorem delete {dataset : List α} {d : IndexedData α} (h : SubSnapshot dataset d) (p : ℕ) :
    SubSnapshot dataset (d.delete p) := by
  refine ⟨by simp [IndexedData.delete, h.length_eq], fun q r hq => h.get_eq q r ?_⟩
  simp only [get_natCast, IndexedData.delete, List.getElem?_set] at hq ⊢
  split_ifs at hq <;> simp_all

theorem deleteAll {dataset : List α} {d : IndexedData α} (h : SubSnapshot dataset d)
    (ps : List ℕ) : SubSnapshot dataset (d.deleteAll ps) := by
  induction ps generalizing d with
  | nil => exact h
  | cons p ps ih => exact ih (h.delete p)

theorem len_le {dataset : List α} {d : IndexedData α} (h : SubSnapshot dataset d) :
    d.len ≤ dataset.length :=
  h.length_eq ▸ List.countP_le_length _

end SubSnapshot

theorem forall₂_filter_filterMap (f : ℕ → Option α) (l : List ℕ) :
    List.Forall₂ (fun p r => f p = some r) (l.filter fun p => (f p).isSome) (l.filterMap f) := by
  induction l with
  | nil => exact .nil
  | cons p l ih =>
    cases h : f p with
    | none => simpa [List.filter_cons, List.filterMap_cons, h] using ih
    | some r =>
      simp only [List.filter_cons, List.filterMap_cons, h, Option.isSome_some, if_true]
      exact .cons h ih

theorem rows_positions (d : IndexedData α) (s e : ℕ) :
    ∃ ps : List ℕ, ps.Pairwise (· < ·) ∧ (∀ p ∈ ps, s ≤ p ∧ p < e) ∧
      List.Forall₂ (fun (p : ℕ) r => d.get p = some r) ps (d.rows s e) := by
  refine ⟨_, (List.pairwise_lt_range' s (e - s)).filter _, fun p hp => ?_,
    forall₂_filter_filterMap (fun p : ℕ => d.get p) _⟩
  simp only [List.mem_filter, List.mem_range'_1] at hp
  omega

theorem rows_full (dataset : List α) (s e : ℕ) :
    (⟨dataset.map some⟩ : IndexedData α).rows s e = (dataset.drop s).take (e - s) := by
  induction e with
  | zero => simp [rows]
  | succ e ih =>
    rcases Nat.lt_or_ge e s with h | h
    · rw [rows_of_le _ (by omega), show e + 1 - s = 0 by omega, List.take_zero]
    · rw [rows_succ _ h, ih, show e + 1 - s = e - s + 1 by omega, List.take_succ,
        List.getElem?_drop, show s + (e - s) = e by omega, get_full]

def Server.deletePositions (srv : Server α) (ps : List ℕ) : Server α :=
  { srv with indexedCache := some (srv.indexedDataset.1.deleteAll ps) }

def readAll (pageSize : ℤ) (deletions : ℕ → List ℕ) :
    ℕ → ℕ → Server α → Option ℤ → Option (List α)
  | 0, _, _, _ => none
  | fuel + 1, c, srv, index =>
    let call := (srv.deletePositions (deletions c)).getHyperIndex index pageSize
    match call.1.nextIndex with
    | none => some call.1.data
    | some next =>
      (readAll pageSize deletions fuel (c + 1) call.2 (some next)).map (call.1.data ++ ·)

def Server.Valid (dataset : List α) (srv : Server α) : Prop :=
  srv.dataset = dataset ∧ ∀ d, srv.indexedCache = some d → SubSnapshot dataset d

theorem Server.valid_fresh (dataset : List α) : (⟨dataset, none⟩ : Server α).Valid dataset :=
  ⟨rfl, fun _ h => nomatch h⟩

theorem Server.getHyperIndex_of_cache {srv : Server α} {d : IndexedData α}
    (h : srv.indexedCache = some d) (index : Option ℤ) (pageSize : ℤ) :
    srv.getHyperIndex index pageSize = (getHyperIndexOn d index pageSize, srv) := by
  simp [Server.getHyperIndex, Server.indexedDataset, h]

theorem Server.getHyperIndex_eq (srv : Server α) (index : Option ℤ) (pageSize : ℤ) :
    srv.getHyperIndex index pageSize =
      (getHyperIndexOn srv.indexedDataset.1 index pageSize, srv.indexedDataset.2) :=
  rfl

theorem Server.Valid.indexedDataset {dataset : List α} {srv : Server α} (h : srv.Valid dataset) :
    SubSnapshot dataset srv.indexedDataset.1 ∧
      srv.indexedDataset.2.indexedCache = some srv.indexedDataset.1 ∧
      srv.indexedDataset.2.Valid dataset := by
  unfold Server.indexedDataset
  split
  next d hd => exact ⟨h.2 d hd, hd, h⟩
  next => exact ⟨h.1 ▸ SubSnapshot.full _, rfl, h.1,
    fun d hd => Option.some_inj.mp hd ▸ h.1 ▸ SubSnapshot.full _⟩

theorem Server.Valid.deletePositions {dataset : List α} {srv : Server α}
    (h : srv.Valid dataset) (ps : List ℕ) : (srv.deletePositions ps).Valid dataset :=
  ⟨h.1, fun _ hd => Option.some_inj.mp hd ▸ h.indexedDataset.1.deleteAll ps⟩

theorem Server.Valid.getHyperIndex {dataset : List α} {srv : Server α} (h : srv.Valid dataset)
    {index : Option ℤ} {s : ℕ} (hs : index.getD 0 = s) {k : ℕ} (hk : 0 < k) :
    ∃ e : ℕ, s ≤ e ∧ (srv.getHyperIndex index k).2.Valid dataset ∧
      (∃ qs : List ℕ, qs.Pairwise (· < ·) ∧ (∀ p ∈ qs, s ≤ p ∧ p < e) ∧
        List.Forall₂ (fun p r => dataset[p]? = some r) qs (srv.getHyperIndex index k).1.data) ∧
      ((srv.getHyperIndex index k).1.nextIndex = none ∨
        (srv.getHyperIndex index k).1.nextIndex = some (e : ℤ) ∧ s < e ∧
          e < dataset.length) := by
  obtain ⟨hsub, -, hvalid⟩ := h.indexedDataset
  obtain ⟨e, hse, hdata, hnext⟩ := getHyperIndexOn_cursor srv.indexedDataset.1 hs hk
  obtain ⟨qs, hpw, hbound, hrel⟩ := rows_positions srv.indexedDataset.1 s e
  rw [Server.getHyperIndex_eq]
  refine ⟨e, hse, hvalid, ⟨qs, hpw, hbound, ?_⟩, ?_⟩
  · rw [hdata]
    exact hrel.imp fun p r hp => hsub.get_eq p r hp
  · rcases hnext with ⟨hn, -⟩ | ⟨hn, hlt, hlen⟩
    · exact .inl hn
    · exact .inr ⟨hn, hlt, hlen.trans_le hsub.len_le⟩

theorem readAll_succ (pageSize : ℤ) (deletions : ℕ → List ℕ) (fuel c : ℕ)
    (srv : Server α)
    (index : Option ℤ) :
    readAll pageSize deletions (fuel + 1) c srv index =
      match ((srv.deletePositions (deletions c)).getHyperIndex index pageSize).1.nextIndex with
      | none => some ((srv.deletePositions (deletions c)).getHyperIndex index pageSize).1.data
      | some next => (readAll pageSize deletions fuel (c + 1)
          ((srv.deletePositions (deletions c)).getHyperIndex index pageSize).2 (some next)).map
            (((srv.deletePositions (deletions c)).getHyperIndex index pageSize).1.data ++ ·) :=
  rfl

theorem readAll_ends {dataset : List α} {k : ℕ} (hk : 0 < k) (deletions : ℕ → List ℕ) :
    ∀ (fuel c : ℕ) (srv : Server α) (index : Option ℤ) (j : ℕ), srv.Valid dataset →
      index.getD 0 = j → j ≤ dataset.length → dataset.length < j + fuel →
      ∃ out, readAll k deletions fuel c srv index = some out
  | 0, _, _, _, _, _, _, hj, hf => by omega
  | fuel + 1, c, srv, index, j, h, hs, _, hf => by
    obtain ⟨e, hse, hvalid, -, hnext⟩ := (h.deletePositions (deletions c)).getHyperIndex hs hk
    rw [readAll_succ]
    rcases hnext with hn | ⟨hn, hlt, hlen⟩
    · simp only [hn, Option.some.injEq, exists_eq']
    · obtain ⟨out, hout⟩ :=
        readAll_ends hk deletions fuel (c + 1) _ (some e) e hvalid rfl hlen.le (by omega)
      simp only [hn, hout, Option.map_some', Option.some.injEq, exists_eq']

theorem readAll_sorted {dataset : List α} {k : ℕ} (hk : 0 < k) (deletions : ℕ → List ℕ) :
    ∀ (fuel c : ℕ) (srv : Server α) (index : Option ℤ) (j : ℕ) (out : List α),
      srv.Valid dataset → index.getD 0 = j → readAll k deletions fuel c srv index = some out →
      ∃ ps : List ℕ, ps.Pairwise (· < ·) ∧ (∀ p ∈ ps, j ≤ p) ∧
        List.Forall₂ (fun p r => dataset[p]? = some r) ps out
  | 0, _, _, _, _, _, _, _, hout => nomatch hout
  | fuel + 1, c, srv, index, j, out, h, hs, hout => by
    obtain ⟨e, hse, hvalid, ⟨qs, hpw, hbound, hrel⟩, hnext⟩ :=
      (h.deletePositions (deletions c)).getHyperIndex hs hk
    rw [readAll_succ] at hout
    rcases hnext with hn | ⟨hn, -, -⟩
    · rw [hn, Option.some_inj] at hout
      exact ⟨qs, hpw, fun p hp => (hbound p hp).1, hout ▸ hrel⟩
    · rw [hn] at hout
      obtain ⟨rest, hrest, rfl⟩ := Option.map_eq_some'.mp hout
      obtain ⟨ps, hpw', hbound', hrel'⟩ :=
        readAll_sorted hk deletions fuel (c + 1) _ (some e) e rest hvalid rfl hrest
      refine ⟨qs ++ ps, List.pairwise_append.mpr ⟨hpw, hpw', fun a ha b hb => ?_⟩,
        fun p hp => ?_, List.rel_append hrel hrel'⟩
      · exact (hbound a ha).2.trans_le (hbound' b hb)
      · rcases List.mem_append.mp hp with hp | hp
        · exact (hbound p hp).1
        · exact hse.trans (hbound' p hp)

/-- A client reading every page of a fresh server, whatever positions are deleted before each
call, stops after at most `len(dataset) + 1` calls, and the rows it receives are rows of the
dataset at strictly increasing positions, so none twice. -/
theorem readAll_fresh_sorted (dataset : List α) {k : ℕ} (hk : 0 < k) (deletions : ℕ → List ℕ)
    {fuel : ℕ} (hfuel : dataset.length < fuel) :
    ∃ out, readAll k deletions fuel 0 ⟨dataset, none⟩ none = some out ∧
      ∃ ps : List ℕ, ps.Pairwise (· < ·) ∧ List.Forall₂ (fun p r => dataset[p]? = some r) ps out := by
  obtain ⟨out, hout⟩ := readAll_ends hk deletions fuel 0 _ none 0 (Server.valid_fresh dataset)
    rfl (Nat.zero_le _) (by omega)
  obtain ⟨ps, hpw, -, hrel⟩ :=
    readAll_sorted hk deletions fuel 0 _ none 0 out (Server.valid_fresh dataset) rfl hout
  exact ⟨out, hout, ps, hpw, hrel⟩

theorem readAll_fresh_sorted_three_rows :
    (0 < 2) ∧ ([0, 1, 2] : List ℕ).length < 4 ∧
      ∃ out, readAll 2 (fun c => if c = 0 then [1] else []) 4 0 ⟨[0, 1, 2], none⟩ none = some out ∧
        ∃ ps : List ℕ, ps.Pairwise (· < ·) ∧
          List.Forall₂ (fun p r => ([0, 1, 2] : List ℕ)[p]? = some r) ps out :=
  ⟨by decide, by decide,
    readAll_fresh_sorted [0, 1, 2] (by decide) (fun c => if c = 0 then [1] else []) (by decide)⟩

/-- Deleting position `0` of three before the first call, a client reading pages of size `1`
receives row `1` and is told there is no next page: row `2`, never deleted, never arrives. -/
theorem readAll_tail_lost :
    readAll 1 (fun c => if c = 0 then [0] else []) 4 0 (⟨[0, 1, 2], none⟩ : Server ℕ) none =
      some [1] := by
  decide

theorem len_full (dataset : List α) :
    (⟨dataset.map some⟩ : IndexedData α).len = dataset.length := by
  simp [IndexedData.len, List.countP_map, Function.comp_def]

theorem readAll_full {dataset : List α} {k : ℕ} (hk : 0 < k) :
    ∀ (fuel c : ℕ) (srv : Server α) (index : Option ℤ) (j : ℕ), srv.dataset = dataset →
      (srv.indexedCache = none ∨ srv.indexedCache = some ⟨dataset.map some⟩) →
      index.getD 0 = j → j ≤ dataset.length → dataset.length < j + fuel →
      readAll k (fun _ => []) fuel c srv index = some (dataset.drop j)
  | 0, _, _, _, _, _, _, _, hj, hf => by omega
  | fuel + 1, c, srv, index, j, hds, hcache, hs, hj, hf => by
    have hdel : (srv.deletePositions []).indexedCache = some ⟨dataset.map some⟩ := by
      rcases hcache with h | h <;>
        simp [Server.deletePositions, Server.indexedDataset, h, hds, IndexedData.deleteAll]
    obtain ⟨e, hse, hdata, hnext⟩ := getHyperIndexOn_cursor ⟨dataset.map some⟩ hs hk
    rw [readAll_succ, Server.getHyperIndex_of_cache hdel, hdata, rows_full]
    rw [len_full] at hnext
    rcases hnext with ⟨hn, hlen⟩ | ⟨hn, hlt, hlen⟩
    · rw [hn, List.take_of_length_le (by simp; omega)]
    · rw [hn]
      dsimp only
      rw [readAll_full hk fuel (c + 1) (srv.deletePositions []) (some e) e hds (.inr hdel) rfl
        hlen.le (by omega), Option.map_some']
      conv_rhs => rw [← List.take_append_drop (e - j) (dataset.drop j), List.drop_drop,
        show j + (e - j) = e by omega]

/-- With nothing deleted, a client reading every page of a fresh server receives the whole
dataset, in order. -/
theorem readAll_no_deletions (dataset : List α) {k : ℕ} (hk : 0 < k) {fuel : ℕ}
    (hfuel : dataset.length < fuel) :
    readAll k (fun _ => []) fuel 0 ⟨dataset, none⟩ none = some dataset :=
  readAll_full hk fuel 0 _ none 0 rfl (.inl rfl) rfl (Nat.zero_le _) (by omega)

theorem readAll_no_deletions_three_rows :
    (0 < 2) ∧ ([0, 1, 2] : List ℕ).length < 4 ∧
      readAll 2 (fun _ => []) 4 0 (⟨[0, 1, 2], none⟩ : Server ℕ) none = some [0, 1, 2] :=
  ⟨by decide, by decide, readAll_no_deletions [0, 1, 2] (by decide) (by decide)⟩

theorem Server.deletePositions_nil {srv : Server α} {d : IndexedData α}
    (h : srv.indexedCache = some d) : srv.deletePositions [] = srv := by
  cases srv
  simp_all [Server.deletePositions, Server.indexedDataset, IndexedData.deleteAll]

theorem readAll_congr (pageSize : ℤ) {dels dels' : ℕ → List ℕ} :
    ∀ (fuel c : ℕ), (∀ c', c ≤ c' → dels c' = dels' c') →
      ∀ (srv : Server α) (index : Option ℤ),
      readAll pageSize dels fuel c srv index = readAll pageSize dels' fuel c srv index
  | 0, _, _, _, _ => rfl
  | fuel + 1, c, h, srv, index => by
    rw [readAll_succ, readAll_succ, h c le_rfl]
    split
    · rfl
    · rw [readAll_congr pageSize fuel (c + 1) (fun c' hc => h c' (by omega))]

theorem readAll_cached {d : IndexedData α} {k : ℕ} (hk : 0 < k) :
    ∀ (fuel c : ℕ) (srv : Server α) (index : Option ℤ) (j : ℕ),
      srv.indexedCache = some d → index.getD 0 = j → j ≤ d.len → d.len < j + fuel →
      readAll k (fun _ => []) fuel c srv index = some (d.rows j d.len)
  | 0, _, _, _, _, _, _, hj, hf => by omega
  | fuel + 1, c, srv, index, j, hcache, hs, hj, hf => by
    obtain ⟨e, hw, hstop, hr⟩ := getHyperIndexOn_eq d hs k
    have he : e ≤ d.len := (le_max_iff.mp hw.cur_le).elim (fun h => h.trans hj) id
    rw [readAll_succ, Server.deletePositions_nil hcache, Server.getHyperIndex_of_cache hcache, hr]
    split_ifs with hlt
    · have hse := (hw.full_of_lt hstop hk (by exact_mod_cast hlt)).2
      dsimp only
      rw [readAll_cached hk fuel (c + 1) srv (some e) e hcache rfl he (by omega), Option.map_some',
        ← rows_append d hw.start_le he]
    · rw [show e = d.len by omega]

/-- Deletions made before the first call only: a client reading every page gets exactly the
live rows at positions below `len(indexed_data)`, the number of live rows, and never those
at positions from there on. -/
theorem readAll_deleted_before_start (dataset : List α) (ps : List ℕ) {k : ℕ} (hk : 0 < k) {fuel : ℕ}
    (hfuel : dataset.length < fuel) :
    readAll k (fun c => if c = 0 then ps else []) fuel 0 ⟨dataset, none⟩ none =
      some ((IndexedData.deleteAll ⟨dataset.map some⟩ ps).rows 0
        (IndexedData.deleteAll ⟨dataset.map some⟩ ps).len) := by
  have hcache : (Server.deletePositions ⟨dataset, none⟩ ps).indexedCache =
      some (IndexedData.deleteAll ⟨dataset.map some⟩ ps) := rfl
  have hlen := ((SubSnapshot.full dataset).deleteAll ps).len_le
  obtain ⟨fuel, rfl⟩ : ∃ f, fuel = f + 1 := ⟨fuel - 1, by omega⟩
  rw [← readAll_cached hk (fuel + 1) 0 _ none 0 hcache rfl (Nat.zero_le _) (by omega),
    readAll_succ, readAll_succ, Server.deletePositions_nil hcache, if_pos rfl]
  split
  · rfl
  · rw [readAll_congr k fuel (0 + 1) (fun c' hc => if_neg (by omega))]

theorem readAll_deleted_before_start_three_rows :
    (0 < 1) ∧ ([0, 1, 2] : List ℕ).length < 4 ∧
      readAll 1 (fun c => if c = 0 then [0] else []) 4 0 ⟨[0, 1, 2], none⟩ none =
        some ((IndexedData.deleteAll ⟨([0, 1, 2] : List ℕ).map some⟩ [0]).rows 0
          (IndexedData.deleteAll ⟨([0, 1, 2] : List ℕ).map some⟩ [0]).len) :=
  ⟨by decide, by decide, readAll_deleted_before_start [0, 1, 2] [0] (by decide) (by decide)⟩

theorem collect_nonpos (d : IndexedData α) {k : ℤ} (hk : k ≤ 0) :
    ∀ (fuel : ℕ) (cur : ℤ), collect d k fuel [] cur = ([], cur)
  | 0, _ => rfl
  | fuel + 1, cur => by rw [collect, if_neg (by simp only [List.length_nil]; omega)]

theorem getHyperIndexOn_nonpos (d : IndexedData α) (index : Option ℤ) {k : ℤ} (hk : k ≤ 0) :
    getHyperIndexOn d index k =
      { index := index,
        nextIndex := if index.getD 0 < d.len then some (index.getD 0) else none,
        pageSize := 0, data := [] } := by
  simp only [getHyperIndexOn, collect_nonpos d hk, List.length_nil]

theorem readAll_nonpos_spins {d : IndexedData α} (hlen : 0 < d.len) {k : ℤ} (hk : k ≤ 0) :
    ∀ (fuel c : ℕ) (srv : Server α) (index : Option ℤ), index.getD 0 = 0 →
      (srv.deletePositions []).indexedCache = some d →
      readAll k (fun _ => []) fuel c srv index = none
  | 0, _, _, _, _, _ => rfl
  | fuel + 1, c, srv, index, hs, hcache => by
    have hnext : (getHyperIndexOn d index k).nextIndex = some 0 := by
      rw [getHyperIndexOn_nonpos d index hk, hs]
      exact if_pos (by exact_mod_cast hlen)
    rw [readAll_succ, Server.getHyperIndex_of_cache hcache, hnext]
    dsimp only
    rw [readAll_nonpos_spins hlen hk fuel (c + 1) _ (some 0) rfl
      (by rw [Server.deletePositions_nil hcache]; exact hcache)]
    rfl

/-- `get_hyper_index` never checks `page_size`: with `page_size ≤ 0` on a non-empty dataset
the first call returns no rows and `next_index = 0`, and from the server it leaves a call
from `0` returns no rows and `next_index = 0` again and leaves that server as it was, so a
client that follows `next_index` from a fresh server never stops, however many calls it
makes. -/
theorem readAll_nonpos_pageSize_never_ends (dataset : List α) (hne : dataset ≠ []) {k : ℤ}
    (hk : k ≤ 0) (fuel : ℕ) :
    ((⟨dataset, none⟩ : Server α).getHyperIndex none k).1 =
        { index := none, nextIndex := some 0, pageSize := 0, data := [] } ∧
      ((⟨dataset, none⟩ : Server α).getHyperIndex none k).2.getHyperIndex (some 0) k =
        ({ index := some 0, nextIndex := some 0, pageSize := 0, data := [] },
          ((⟨dataset, none⟩ : Server α).getHyperIndex none k).2) ∧
      readAll k (fun _ => []) fuel 0 ⟨dataset, none⟩ none = none := by
  have hlen : 0 < (⟨dataset.map some⟩ : IndexedData α).len := by
    rw [len_full]; exact List.length_pos.mpr hne
  have hcall : ∀ index : Option ℤ, index.getD 0 = 0 →
      getHyperIndexOn ⟨dataset.map some⟩ index k =
        { index := index, nextIndex := some 0, pageSize := 0, data := [] } := fun index hs => by
    rw [getHyperIndexOn_nonpos _ index hk, hs, if_pos (by exact_mod_cast hlen)]
  refine ⟨hcall none rfl, ?_, readAll_nonpos_spins hlen hk fuel 0 _ none rfl rfl⟩
  rw [Server.getHyperIndex_of_cache rfl, hcall (some 0) rfl]

theorem readAll_nonpos_pageSize_never_ends_one_row :
    ([0] : List ℕ) ≠ [] ∧ (0 : ℤ) ≤ 0 ∧
      ((⟨[0], none⟩ : Server ℕ).getHyperIndex none 0).1 =
        { index := none, nextIndex := some 0, pageSize := 0, data := [] } ∧
      ((⟨[0], none⟩ : Server ℕ).getHyperIndex none 0).2.getHyperIndex (some 0) 0 =
        ({ index := some 0, nextIndex := some 0, pageSize := 0, data := [] },
          ((⟨[0], none⟩ : Server ℕ).getHyperIndex none 0).2) ∧
      readAll 0 (fun _ => []) 5 0 (⟨[0], none⟩ : Server ℕ) none = none :=
  ⟨by decide, le_rfl, readAll_nonpos_pageSize_never_ends [0] (by decide) le_rfl 5⟩

inductive Op where
  | getHyperIndex (index : Option ℤ) (pageSize : ℤ)
  | delete (ps : List ℕ)

def Server.apply (srv : Server α) : Op → Server α
  | .getHyperIndex index pageSize => (srv.getHyperIndex index pageSize).2
  | .delete ps => srv.deletePositions ps

def Server.runOps (srv : Server α) (ops : List Op) : Server α :=
  ops.foldl Server.apply srv

theorem Server.Valid.apply {dataset : List α} {srv : Server α} (h : srv.Valid dataset) :
    ∀ op : Op, (srv.apply op).Valid dataset
  | .getHyperIndex _ _ => h.indexedDataset.2.2
  | .delete ps => h.deletePositions ps

theorem Server.Valid.runOps {dataset : List α} (ops : List Op) :
    ∀ srv : Server α, srv.Valid dataset → (srv.runOps ops).Valid dataset := by
  induction ops with
  | nil => exact fun _ h => h
  | cons op ops ih => exact fun srv h => ih _ (h.apply op)

theorem get_delete_self (d : IndexedData α) (p : ℕ) : (d.delete p).get p = none := by
  simp only [get_natCast, IndexedData.delete, List.getElem?_set_self']
  cases d.slots[p]? <;> rfl

theorem get_delete_of_none (d : IndexedData α) (q : ℕ) {p : ℕ} (h : d.get p = none) :
    (d.delete q).get p = none := by
  by_cases hq : q = p
  · rw [hq]
    exact get_delete_self d p
  · rwa [get_natCast, IndexedData.delete, List.getElem?_set_ne hq, ← get_natCast]

theorem get_deleteAll (ps : List ℕ) :
    ∀ (d : IndexedData α) {p : ℕ}, p ∈ ps ∨ d.get p = none →
      (d.deleteAll ps).get p = none := by
  induction ps with
  | nil => exact fun d p h => h.resolve_left (List.not_mem_nil p)
  | cons q ps ih =>
    intro d p h
    apply ih (d.delete q)
    rcases h with h | h
    · rcases List.mem_cons.mp h with rfl | h
      · exact .inr (get_delete_self d p)
      · exact .inl h
    · exact .inr (get_delete_of_none d q h)

theorem collect_live (d : IndexedData α) (k : ℤ) :
    ∀ (fuel : ℕ) (data : List α) (cur : ℤ) (ps : List ℕ),
      List.Forall₂ (fun (p : ℕ) r => d.get p = some r) ps data →
      ∃ qs : List ℕ, List.Forall₂ (fun (p : ℕ) r => d.get p = some r) qs
        (collect d k fuel data cur).1
  | 0, _, _, ps, h => ⟨ps, h⟩
  | fuel + 1, data, cur, ps, h => by
    rw [collect]
    split_ifs
    · cases hc : d.get cur with
      | none => exact collect_live d k fuel _ _ ps h
      | some r =>
        have h0 : 0 ≤ cur := by
          by_contra hneg
          rw [IndexedData.get, if_neg hneg] at hc
          cases hc
        exact collect_live d k fuel _ _ (ps ++ [cur.toNat])
          (List.rel_append h (.cons (by rwa [Int.toNat_of_nonneg h0]) .nil))
    · exact ⟨ps, h⟩

def deletedBy : List Op → List ℕ
  | [] => []
  | .delete ps :: ops => ps ++ deletedBy ops
  | .getHyperIndex _ _ :: ops => deletedBy ops

def Server.Forgets (ps : List ℕ) (srv : Server α) : Prop :=
  ∀ p ∈ ps, ∃ d, srv.indexedCache = some d ∧ d.get p = none

theorem Server.indexedDataset_of_cache {srv : Server α} {d : IndexedData α}
    (h : srv.indexedCache = some d) : srv.indexedDataset = (d, srv) := by
  simp [Server.indexedDataset, h]

theorem Server.Forgets.runOps (ops : List Op) :
    ∀ (ps : List ℕ) (srv : Server α), srv.Forgets ps →
      (srv.runOps ops).Forgets (ps ++ deletedBy ops) := by
  induction ops with
  | nil => exact fun ps srv h => by simpa [deletedBy, Server.runOps] using h
  | cons op ops ih =>
    intro ps srv h
    rcases op with ⟨index, pageSize⟩ | qs
    · have h' : (srv.apply (.getHyperIndex index pageSize)).Forgets ps := fun p hp => by
        obtain ⟨d, hd, hp⟩ := h p hp
        refine ⟨d, ?_, hp⟩
        simp only [Server.apply, Server.getHyperIndex_eq, Server.indexedDataset_of_cache hd, hd]
      exact ih ps _ h'
    · have h' : (srv.apply (.delete qs)).Forgets (ps ++ qs) := fun p hp => by
        refine ⟨_, rfl, get_deleteAll qs _ ?_⟩
        rcases List.mem_append.mp hp with hp | hp
        · obtain ⟨d, hd, hp⟩ := h p hp
          exact .inr (by rwa [Server.indexedDataset_of_cache hd])
        · exact .inl hp
      simpa [deletedBy, List.append_assoc] using ih _ _ h'

/-- A deleted record is never served again: in every run of calls and deletions from a fresh
server, every row a call of `get_hyper_index` returns, for any `index` and `page_size`, is the
dataset's row at a position that no earlier deletion removed. -/
theorem runOps_getHyperIndex_not_deleted (dataset : List α) (ops : List Op)
    (index : Option ℤ) (pageSize : ℤ) :
    ∃ ps : List ℕ, List.Forall₂ (fun p r => dataset[p]? = some r ∧ p ∉ deletedBy ops) ps
      (((⟨dataset, none⟩ : Server α).runOps ops).getHyperIndex index pageSize).1.data := by
  have hsub : SubSnapshot dataset ((⟨dataset, none⟩ : Server α).runOps ops).indexedDataset.1 :=
    ((Server.valid_fresh dataset).runOps ops _).indexedDataset.1
  have hgone := Server.Forgets.runOps ops [] (⟨dataset, none⟩ : Server α)
    (fun p hp => absurd hp (List.not_mem_nil p))
  obtain ⟨qs, hqs⟩ := collect_live ((⟨dataset, none⟩ : Server α).runOps ops).indexedDataset.1
    pageSize _ [] (index.getD 0) [] .nil
  refine ⟨qs, hqs.imp fun p r hp => ⟨hsub.get_eq p r hp, fun hdel => ?_⟩⟩
  obtain ⟨d, hd, hnone⟩ := hgone p hdel
  rw [Server.indexedDataset_of_cache hd, hnone] at hp
  cases hp

end AlxBackend.Pagination.HypermediaDelPagination
