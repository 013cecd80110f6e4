import AlxBackend.Pagination.GetHyper

/-! `readPages`: a client of `get_hyper` that starts at page `1` and follows `next_page` until
it is `None`, within `fuel` calls. Both copies of `get_hyper` lead it through the whole dataset and nothing else: the
`0x00-pagination` copy in `⌈len / page_size⌉` calls (one for an empty dataset), the root copy
in `len // page_size + 1`, so where the page size divides the length its last call reads an
empty page. -/

namespace AlxBackend.Pagination
open Python

variable {α : Type}

def readPages (getHyper : List α → ℤ → ℤ → Except PyError (HyperPage α)) (dataset : List α)
    (pageSize : ℤ) : ℕ → ℤ → Option (List α)
  | 0, _ => none
  | fuel + 1, page =>
    match getHyper dataset page pageSize with
    | .error _ => none
    | .ok h =>
      match h.nextPage with
      | none => some h.data
      | some next => (readPages getHyper dataset pageSize fuel next).map (h.data ++ ·)

theorem readPages_of_blocks {getHyper : List α → ℤ → ℤ → Except PyError (HyperPage α)}
    {dataset : List α} {pageSize bound : ℕ} (hcover : dataset.length ≤ bound * pageSize)
    (hpage : ∀ i : ℕ, ∃ h : HyperPage α, getHyper dataset (i + 1) pageSize = .ok h ∧
      h.data = pageOf dataset pageSize i ∧
      h.nextPage = if i + 1 < bound then some ((i : ℤ) + 1 + 1) else none) :
    ∀ (fuel i : ℕ), bound ≤ i + fuel → 0 < fuel →
      readPages getHyper dataset pageSize fuel (i + 1) = some (dataset.drop (i * pageSize))
  | 0, _, _, hf => absurd hf (lt_irrefl 0)
  | fuel + 1, i, hb, _ => by
    obtain ⟨h, hget, hdata, hnext⟩ := hpage i
    rw [readPages, hget]
    dsimp only
    rw [hnext, hdata, pageOf]
    split_ifs with hlt
    · have hrest := readPages_of_blocks hcover hpage fuel (i + 1) (by omega) (by omega)
      push_cast at hrest
      dsimp only
      rw [hrest, Option.map_some', Nat.succ_mul, ← List.drop_drop, List.take_append_drop]
    · have hle : dataset.length ≤ (i + 1) * pageSize :=
        hcover.trans (Nat.mul_le_mul_right _ (by omega))
      rw [Nat.succ_mul] at hle
      rw [List.take_of_length_le (by rw [List.length_drop]; omega)]

/-- Following `next_page` of the `0x00-pagination` `get_hyper` from page `1` returns the
dataset, for a dataset shorter than `2 ^ 53` and every page size `≥ 1`, within
`len(dataset) + 1` calls: the client reads only the rows and `next_page`, so a `total_pages`
that underflows to `0` does not stop it. -/
theorem readPages_hypermedia (dataset : List α) {pageSize : ℤ} (hL : dataset.length < 2 ^ 53)
    (hs : 1 ≤ pageSize) {fuel : ℕ} (hfuel : dataset.length < fuel) :
    readPages HypermediaPagination.getHyper dataset pageSize fuel 1 = some dataset := by
  lift pageSize to ℕ using (by omega)
  have hN : 0 < pageSize := by omega
  obtain ⟨v, hv⟩ := trueDiv_ok hL hN
  have hk : (dataset.length + pageSize - 1) / pageSize < dataset.length + 1 := by
    have := Nat.le_mul_of_pos_right dataset.length hN
    exact (Nat.div_lt_iff_lt_mul hN).mpr (by rw [Nat.succ_mul]; omega)
  have := readPages_of_blocks (le_pageCount_mul dataset.length hN)
    (fun i => ⟨_, HypermediaPagination.getHyper_of_trueDiv i hN hv, rfl, by push_cast; rfl⟩)
    fuel 0 (by omega) (by omega)
  simpa using this

theorem readPages_hypermedia_underflow :
    ([0, 1, 2] : List ℕ).length < 2 ^ 53 ∧ (1 : ℤ) ≤ 2 ^ 1076 ∧ ([0, 1, 2] : List ℕ).length < 4 ∧
      readPages HypermediaPagination.getHyper [0, 1, 2] (2 ^ 1076) 4 1 = some [0, 1, 2] :=
  have hs : (1 : ℤ) ≤ 2 ^ 1076 := one_le_pow₀ (by norm_num)
  ⟨by decide, hs, by decide, readPages_hypermedia [0, 1, 2] (by decide) hs (by decide)⟩

/-- Following `next_page` of the root `get_hyper` from page `1` returns the dataset too, for
every dataset and page size `≥ 1`, within `len(dataset) + 1` calls: its one page too many
is empty. -/
theorem readPages_root (dataset : List α) {pageSize : ℤ} (hs : 1 ≤ pageSize) {fuel : ℕ}
    (hfuel : dataset.length < fuel) :
    readPages RootHypermediaPagination.getHyper dataset pageSize fuel 1 = some dataset := by
  lift pageSize to ℕ using (by omega)
  have hN : 0 < pageSize := by omega
  have hcover : dataset.length ≤ (dataset.length / pageSize + 1) * pageSize := by
    have := Nat.lt_div_mul_add (a := dataset.length) hN
    rw [Nat.succ_mul]
    omega
  have hbound := Nat.div_le_self dataset.length pageSize
  have := readPages_of_blocks hcover
    (fun i => ⟨_, RootHypermediaPagination.getHyper_eq i hN, rfl,
      by simp only [Nat.lt_succ_iff]⟩)
    fuel 0 (by omega) (by omega)
  simpa using this

theorem readPages_root_four :
    (1 : ℤ) ≤ 2 ∧ ([0, 1, 2, 3] : List ℕ).length < 5 ∧
      readPages RootHypermediaPagination.getHyper [0, 1, 2, 3] 2 5 1 = some [0, 1, 2, 3] :=
  ⟨by decide, by decide, readPages_root [0, 1, 2, 3] (by decide) (by decide)⟩

end AlxBackend.Pagination
