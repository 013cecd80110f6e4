import AlxBackend.Pagination.IndexRange

/-! `Server.get_page`: the classic page of a dataset, by page number. The two copies under
`0x00-pagination` check their arguments, then return `[]` for a start past the data and the
slice otherwise; the root `2-hypermedia_pagination.py` slices without the guard. All three
return the `i`-th block of `page_size` rows, and the blocks cover the dataset. -/

namespace AlxBackend.Pagination
open Python

variable {α : Type}

def pageOf (dataset : List α) (pageSize i : ℕ) : List α :=
  (dataset.drop (i * pageSize)).take pageSize

/-- `Server.get_page` of `0x00-pagination/1-simple_pagination.py` and
`0x00-pagination/2-hypermedia_pagination.py`, which differ only in the `index_range` they call
and in the messages of their two assertions. -/
def getPageWith (indexRange : ℤ → ℤ → ℤ × ℤ) (pageMsg sizeMsg : Option String)
    (dataset : List α) (page pageSize : ℤ) : Except PyError (List α) := do
  pyAssert (0 < page) pageMsg
  pyAssert (0 < pageSize) sizeMsg
  let (startIndex, endIndex) := indexRange page pageSize
  if dataset.length ≤ startIndex then return []
  return getSlice dataset startIndex endIndex

namespace SimplePagination

/-- `Server.get_page` of `0x00-pagination/1-simple_pagination.py`. -/
def getPage (dataset : List α) (page pageSize : ℤ) : Except PyError (List α) :=
  getPageWith indexRange (some "Page must be a positive integer.")
    (some "Page size must be a positive integer.") dataset page pageSize

end SimplePagination

namespace HypermediaPagination

/-- `Server.get_page` of `0x00-pagination/2-hypermedia_pagination.py`. -/
def getPage (dataset : List α) (page pageSize : ℤ) : Except PyError (List α) :=
  getPageWith indexRange none none dataset page pageSize

end HypermediaPagination

namespace RootHypermediaPagination

/-- `Server.assert_positive_integer_type`. -/
def assertPositiveIntegerType (value : ℤ) : Except PyError Unit :=
  pyAssert (0 < value) none

/-- `Server.get_page` of the root `2-hypermedia_pagination.py`, with the loop `index_range` of
`0-simple_helper_function.py`. Slicing never raises, so its `except IndexError` is dead. -/
def getPage (dataset : List α) (page pageSize : ℤ) : Except PyError (List α) := do
  assertPositiveIntegerType page
  assertPositiveIntegerType pageSize
  let (start, stop) := SimpleHelperFunction.indexRange page pageSize
  return getSlice dataset start stop

end RootHypermediaPagination

theorem getSlice_page (dataset : List α) (pageSize i : ℕ) :
    getSlice dataset ((i * pageSize : ℕ) : ℤ) (((i + 1) * pageSize : ℕ) : ℤ) =
      pageOf dataset pageSize i := by
  have h : i * pageSize ≤ (i + 1) * pageSize := Nat.mul_le_mul_right _ (Nat.le_succ i)
  rw [getSlice_of_nonneg _ (Int.natCast_nonneg _) (Nat.cast_le.mpr h), ← Nat.cast_sub h,
    Int.toNat_natCast, Int.toNat_natCast, Nat.succ_mul, Nat.add_sub_cancel_left, pageOf]

theorem pageOf_of_length_le {dataset : List α} {pageSize i : ℕ}
    (h : dataset.length ≤ i * pageSize) : pageOf dataset pageSize i = [] := by
  rw [pageOf, List.drop_eq_nil_of_le h, List.take_nil]

theorem pageOf_zero_of_length_le {dataset : List α} {pageSize : ℕ}
    (h : dataset.length ≤ pageSize) : pageOf dataset pageSize 0 = dataset := by
  rw [pageOf, Nat.zero_mul, List.drop_zero, List.take_of_length_le h]

theorem getPageWith_eq_pageOf {indexRange : ℤ → ℤ → ℤ × ℤ}
    (pageMsg sizeMsg : Option String) (dataset : List α) {pageSize : ℕ} (i : ℕ)
    (hN : 0 < pageSize)
    (hir : indexRange (i + 1) pageSize =
      (((i * pageSize : ℕ) : ℤ), (((i + 1) * pageSize : ℕ) : ℤ))) :
    getPageWith indexRange pageMsg sizeMsg dataset (i + 1) pageSize =
      .ok (pageOf dataset pageSize i) := by
  simp only [getPageWith, pyAssert_of_true (by omega : (0 : ℤ) < i + 1),
    pyAssert_of_true (by exact_mod_cast hN : (0 : ℤ) < pageSize), hir, Nat.cast_le,
    getSlice_page]
  split
  · rw [pageOf_of_length_le ‹_›]; rfl
  · rfl

theorem closedForm_natCast (i pageSize : ℕ) :
    (((i : ℤ) + 1 - 1) * pageSize, ((i : ℤ) + 1) * pageSize) =
      (((i * pageSize : ℕ) : ℤ), (((i + 1) * pageSize : ℕ) : ℤ)) := by
  ext <;> push_cast <;> ring

theorem SimplePagination.getPage_eq_pageOf (dataset : List α) {pageSize : ℕ} (i : ℕ)
    (hN : 0 < pageSize) :
    SimplePagination.getPage dataset (i + 1) pageSize = .ok (pageOf dataset pageSize i) :=
  getPageWith_eq_pageOf _ _ dataset i hN
    ((SimplePagination.indexRange_eq _ _).trans (closedForm_natCast i pageSize))

theorem HypermediaPagination.getPage_eq_pageOf (dataset : List α) {pageSize : ℕ} (i : ℕ)
    (hN : 0 < pageSize) :
    HypermediaPagination.getPage dataset (i + 1) pageSize = .ok (pageOf dataset pageSize i) :=
  getPageWith_eq_pageOf _ _ dataset i hN (closedForm_natCast i pageSize)

theorem RootHypermediaPagination.getPage_eq_pageOf (dataset : List α) {pageSize : ℕ} (i : ℕ)
    (hN : 0 < pageSize) :
    RootHypermediaPagination.getPage dataset (i + 1) pageSize =
      .ok (pageOf dataset pageSize i) := by
  have hi : (1 : ℤ) ≤ i + 1 := by omega
  simp only [RootHypermediaPagination.getPage, RootHypermediaPagination.assertPositiveIntegerType,
    pyAssert_of_true (by omega : (0 : ℤ) < i + 1),
    pyAssert_of_true (by exact_mod_cast hN : (0 : ℤ) < pageSize),
    SimpleHelperFunction.indexRange_of_pos _ hi, closedForm_natCast, getSlice_page]
  rfl

theorem exists_nat_succ {page : ℤ} (h : 1 ≤ page) : ∃ i : ℕ, page = i + 1 :=
  ⟨(page - 1).toNat, by omega⟩

/-- The root `get_page`, with the loop `index_range` and no guard before its slice, returns
what the `0x00-pagination/2-hypermedia_pagination.py` copy returns for every dataset and every
pair of integers, failed assertions included. -/
theorem getPage_root_eq_hypermedia (dataset : List α) (page pageSize : ℤ) :
    RootHypermediaPagination.getPage dataset page pageSize =
      HypermediaPagination.getPage dataset page pageSize := by
  by_cases hp : 0 < page
  · by_cases hs : 0 < pageSize
    · obtain ⟨i, rfl⟩ := exists_nat_succ hp
      lift pageSize to ℕ using hs.le
      have hN : 0 < pageSize := by exact_mod_cast hs
      rw [RootHypermediaPagination.getPage_eq_pageOf _ _ hN,
        HypermediaPagination.getPage_eq_pageOf _ _ hN]
    · simp [RootHypermediaPagination.getPage, RootHypermediaPagination.assertPositiveIntegerType,
        HypermediaPagination.getPage, getPageWith, hp, hs, bind, Except.bind]
  · simp [RootHypermediaPagination.getPage, RootHypermediaPagination.assertPositiveIntegerType,
      HypermediaPagination.getPage, getPageWith, hp, bind, Except.bind]

theorem flatten_pageOf_range (dataset : List α) (pageSize k : ℕ) :
    ((List.range k).map (pageOf dataset pageSize)).flatten = dataset.take (k * pageSize) := by
  induction k with
  | zero => simp
  | succ k ih =>
    rw [List.range_succ, List.map_append, List.flatten_append, ih, Nat.succ_mul, List.take_add]
    simp [pageOf]

theorem le_pageCount_mul (len : ℕ) {pageSize : ℕ} (hN : 0 < pageSize) :
    len ≤ (len + pageSize - 1) / pageSize * pageSize := by
  have := Nat.lt_div_mul_add (a := len + pageSize - 1) hN
  omega

theorem length_pageOf (dataset : List α) (pageSize i : ℕ) :
    (pageOf dataset pageSize i).length = min pageSize (dataset.length - i * pageSize) := by
  simp [pageOf]

theorem lt_pageCount_iff {len pageSize : ℕ} (hN : 0 < pageSize) (i : ℕ) :
    i < (len + pageSize - 1) / pageSize ↔ i * pageSize < len := by
  rw [Nat.lt_iff_add_one_le, Nat.le_div_iff_mul_le hN, Nat.succ_mul]
  omega

theorem pageCount_eq_div_add_one_iff {len pageSize : ℕ} (hN : 0 < pageSize) :
    (len + pageSize - 1) / pageSize = len / pageSize + 1 ↔ ¬ pageSize ∣ len := by
  have hdm := Nat.div_add_mod len pageSize
  have hr := Nat.mod_lt len hN
  rw [Nat.dvd_iff_mod_eq_zero]
  rcases Nat.eq_zero_or_pos (len % pageSize) with h0 | hpos
  · have : (len + pageSize - 1) / pageSize = len / pageSize :=
      Nat.div_eq_of_lt_le (by rw [Nat.mul_comm]; omega)
        (by rw [Nat.succ_mul, Nat.mul_comm]; omega)
    omega
  · have : (len + pageSize - 1) / pageSize = len / pageSize + 1 :=
      Nat.div_eq_of_lt_le (by rw [Nat.succ_mul, Nat.mul_comm]; omega)
        (by rw [Nat.succ_mul, Nat.succ_mul, Nat.mul_comm]; omega)
    omega

theorem pageOf_ne_nil_iff {dataset : List α} {pageSize : ℕ} (hN : 0 < pageSize) (i : ℕ) :
    pageOf dataset pageSize i ≠ [] ↔ i * pageSize < dataset.length := by
  simp only [pageOf, ne_eq, List.take_eq_nil_iff, List.drop_eq_nil_iff, not_or, not_le]
  omega

/-- Classic pagination partitions the dataset: for `k = ⌈len / page_size⌉`, pages `1 … k` of
either `0x00-pagination` copy of `get_page` are full except the last, which is not empty,
their concatenation is the dataset, and every page past `k` is empty. -/
theorem getPage_pages_partition (dataset : List α) (pageSize : ℕ) (hN : 0 < pageSize) :
    ∃ pages : List (List α),
      pages.length = (dataset.length + pageSize - 1) / pageSize ∧ pages.flatten = dataset ∧
      (∀ i (h : i < pages.length),
        SimplePagination.getPage dataset (i + 1) pageSize = .ok pages[i] ∧
        HypermediaPagination.getPage dataset (i + 1) pageSize = .ok pages[i] ∧
        0 < pages[i].length ∧ pages[i].length ≤ pageSize ∧
        (i + 1 < pages.length → pages[i].length = pageSize)) ∧
      ∀ p : ℕ, pages.length < p →
        SimplePagination.getPage dataset p pageSize = .ok [] ∧
        HypermediaPagination.getPage dataset p pageSize = .ok [] := by
  refine ⟨(List.range ((dataset.length + pageSize - 1) / pageSize)).map (pageOf dataset pageSize),
    by simp, ?_, fun i h => ?_, fun p hp => ?_⟩
  · rw [flatten_pageOf_range, List.take_of_length_le (le_pageCount_mul _ hN)]
  · rw [List.length_map, List.length_range] at h
    have hi := (lt_pageCount_iff hN i).mp h
    simp only [List.getElem_map, List.getElem_range, SimplePagination.getPage_eq_pageOf _ _ hN,
      HypermediaPagination.getPage_eq_pageOf _ _ hN, length_pageOf, List.length_map,
      List.length_range, true_and]
    refine ⟨by omega, min_le_left _ _, fun h2 => ?_⟩
    have hi2 := (lt_pageCount_iff hN (i + 1)).mp h2
    rw [Nat.succ_mul] at hi2
    omega
  · rw [List.length_map, List.length_range] at hp
    obtain ⟨j, rfl⟩ : ∃ j, p = j + 1 :=
      ⟨p - 1, (Nat.succ_pred_eq_of_pos (Nat.zero_lt_of_lt hp)).symm⟩
    have hj : dataset.length ≤ j * pageSize :=
      not_lt.mp ((lt_pageCount_iff hN j).not.mp (Nat.lt_succ_iff.mp hp).not_lt)
    push_cast
    rw [SimplePagination.getPage_eq_pageOf _ _ hN, HypermediaPagination.getPage_eq_pageOf _ _ hN,
      pageOf_of_length_le hj]
    exact ⟨rfl, rfl⟩

theorem getPage_pages_partition_of_five :
    0 < 2 ∧ ∃ pages : List (List ℕ),
      pages.length = ([1, 2, 3, 4, 5].length + 2 - 1) / 2 ∧ pages.flatten = [1, 2, 3, 4, 5] ∧
      (∀ i (h : i < pages.length),
        SimplePagination.getPage [1, 2, 3, 4, 5] (i + 1) 2 = .ok pages[i] ∧
        HypermediaPagination.getPage [1, 2, 3, 4, 5] (i + 1) 2 = .ok pages[i] ∧
        0 < pages[i].length ∧ pages[i].length ≤ 2 ∧
        (i + 1 < pages.length → pages[i].length = 2)) ∧
      ∀ p : ℕ, pages.length < p →
        SimplePagination.getPage [1, 2, 3, 4, 5] p 2 = .ok [] ∧
        HypermediaPagination.getPage [1, 2, 3, 4, 5] p 2 = .ok [] :=
  ⟨by decide, getPage_pages_partition [1, 2, 3, 4, 5] 2 (by decide)⟩

end AlxBackend.Pagination
