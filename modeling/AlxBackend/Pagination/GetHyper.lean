import AlxBackend.Pagination.GetPage
import AlxBackend.Python.TrueDiv

/-! `Server.get_hyper`: a page with its hypermedia links. The copy under `0x00-pagination`
counts pages with `math.ceil(len / page_size)` and links a next page while
`page * page_size < len`; the root copy counts `len // page_size + 1` and links a next page
while `page + 1 <= total_pages`. The first one's float quotient rounds to `0.0` for a page
size of at least `len * 2 ^ 1075`, and then it counts `0` pages; below that bound it counts
them right, and the two copies agree exactly when the page size does not divide the
length. -/

namespace AlxBackend.Pagination
open Python

variable {α : Type}

/-- The dictionary `get_hyper` returns. -/
structure HyperPage (α : Type) where
  pageSize : ℤ
  page : ℤ
  data : List α
  nextPage : Option ℤ
  prevPage : Option ℤ
  totalPages : ℤ
  deriving DecidableEq, Repr

namespace HypermediaPagination

/-- `Server.get_hyper` of `0x00-pagination/2-hypermedia_pagination.py`. -/
def getHyper (dataset : List α) (page pageSize : ℤ) : Except PyError (HyperPage α) := do
  let pageData ← getPage dataset page pageSize
  let totalPages := mathCeil (← trueDiv dataset.length pageSize)
  return { pageSize := pageData.length, page := page, data := pageData,
           nextPage := if page * pageSize < dataset.length then some (page + 1) else none,
           prevPage := if 1 < page then some (page - 1) else none,
           totalPages := totalPages }

end HypermediaPagination

namespace RootHypermediaPagination

/-- `Server.get_hyper` of the root `2-hypermedia_pagination.py`. The floor division comes
before `get_page` checks its arguments, so a zero page size raises `ZeroDivisionError`. -/
def getHyper (dataset : List α) (page pageSize : ℤ) : Except PyError (HyperPage α) := do
  if pageSize = 0 then throw .zeroDivisionError
  let totalPages := Int.fdiv dataset.length pageSize + 1
  let data ← getPage dataset page pageSize
  return { page := page, pageSize := if pageSize ≤ data.length then pageSize else data.length,
           totalPages := totalPages, data := data,
           prevPage := if 1 < page then some (page - 1) else none,
           nextPage := if page + 1 ≤ totalPages then some (page + 1) else none }

end RootHypermediaPagination

theorem HypermediaPagination.getHyper_of_trueDiv {dataset : List α} {pageSize : ℕ} (i : ℕ)
    (hN : 0 < pageSize) {v : ℚ} (hv : trueDiv dataset.length pageSize = .ok v) :
    HypermediaPagination.getHyper dataset (i + 1) pageSize =
      .ok { pageSize := (pageOf dataset pageSize i).length, page := i + 1,
            data := pageOf dataset pageSize i,
            nextPage := if i + 1 < (dataset.length + pageSize - 1) / pageSize
              then some (i + 1 + 1) else none,
            prevPage := if 1 < (i : ℤ) + 1 then some (i + 1 - 1) else none,
            totalPages := mathCeil v } := by
  have hnext : ((i : ℤ) + 1) * pageSize < dataset.length ↔
      i + 1 < (dataset.length + pageSize - 1) / pageSize := by
    rw [lt_pageCount_iff hN]; exact_mod_cast Iff.rfl
  simp only [HypermediaPagination.getHyper, HypermediaPagination.getPage_eq_pageOf _ _ hN, hv,
    hnext]
  rfl

theorem HypermediaPagination.getHyper_eq {dataset : List α} {pageSize : ℕ} (i : ℕ)
    (hL : dataset.length < 2 ^ 53) (hN : 0 < pageSize)
    (hN' : dataset.length = 0 ∨ pageSize < dataset.length * 2 ^ 1075) :
    HypermediaPagination.getHyper dataset (i + 1) pageSize =
      .ok { pageSize := (pageOf dataset pageSize i).length, page := i + 1,
            data := pageOf dataset pageSize i,
            nextPage := if i + 1 < (dataset.length + pageSize - 1) / pageSize
              then some (i + 1 + 1) else none,
            prevPage := if 1 < (i : ℤ) + 1 then some (i + 1 - 1) else none,
            totalPages := ((dataset.length + pageSize - 1) / pageSize : ℕ) } := by
  obtain ⟨v, hv, hceil⟩ := mathCeil_trueDiv hL hN hN'
  rw [HypermediaPagination.getHyper_of_trueDiv i hN hv, hceil]

/-- For a dataset shorter than `2 ^ 53` and a page size whose quotient does not round to `0.0`
(an empty dataset, or a page size below `len * 2 ^ 1075`), `get_hyper` of
`0x00-pagination/2-hypermedia_pagination.py` counts `⌈len / page_size⌉` pages, echoes the
page of `get_page` with its length, links a previous page after the first and a next page
before the last, and returns rows exactly up to the last page. -/
theorem getHyper_hypermedia_links (dataset : List α) (page pageSize : ℤ)
    (hL : dataset.length < 2 ^ 53) (hp : 1 ≤ page) (hs : 1 ≤ pageSize)
    (hs' : dataset.length = 0 ∨ pageSize < dataset.length * 2 ^ 1075) :
    ∃ h : HyperPage α, HypermediaPagination.getHyper dataset page pageSize = .ok h ∧
      h.totalPages = ⌈(dataset.length : ℚ) / pageSize⌉ ∧
      HypermediaPagination.getPage dataset page pageSize = .ok h.data ∧
      h.pageSize = h.data.length ∧ h.page = page ∧
      h.prevPage = (if 1 < page then some (page - 1) else none) ∧
      h.nextPage = (if page < h.totalPages then some (page + 1) else none) ∧
      (h.data ≠ [] ↔ page ≤ h.totalPages) := by
  obtain ⟨i, rfl⟩ := exists_nat_succ hp
  lift pageSize to ℕ using (by omega)
  have hN : 0 < pageSize := by omega
  have hN' : dataset.length = 0 ∨ pageSize < dataset.length * 2 ^ 1075 := by exact_mod_cast hs'
  refine ⟨_, HypermediaPagination.getHyper_eq i hL hN hN', ?_,
    HypermediaPagination.getPage_eq_pageOf _ _ hN, rfl, rfl, rfl, ?_, ?_⟩
  · rw [Int.cast_natCast, ceil_div_eq_natDiv _ hN]
  · dsimp only
    generalize (dataset.length + pageSize - 1) / pageSize = k
    split_ifs <;> first | rfl | omega
  · rw [pageOf_ne_nil_iff hN, ← lt_pageCount_iff hN]
    generalize (dataset.length + pageSize - 1) / pageSize = k
    dsimp only
    omega

theorem getHyper_hypermedia_links_subnormal :
    ([0, 1] : List ℕ).length < 2 ^ 53 ∧ (1 : ℤ) ≤ 1 ∧ (1 : ℤ) ≤ 2 ^ 1075 ∧
      (([0, 1] : List ℕ).length = 0 ∨ (2 ^ 1075 : ℤ) < ([0, 1] : List ℕ).length * 2 ^ 1075) ∧
      ∃ h : HyperPage ℕ, HypermediaPagination.getHyper [0, 1] 1 (2 ^ 1075) = .ok h ∧
        h.totalPages = ⌈(([0, 1] : List ℕ).length : ℚ) / ((2 ^ 1075 : ℤ) : ℚ)⌉ ∧
        HypermediaPagination.getPage [0, 1] 1 (2 ^ 1075) = .ok h.data ∧
        h.pageSize = h.data.length ∧ h.page = 1 ∧
        h.prevPage = (if (1 : ℤ) < 1 then some (1 - 1) else none) ∧
        h.nextPage = (if 1 < h.totalPages then some (1 + 1) else none) ∧
        (h.data ≠ [] ↔ 1 ≤ h.totalPages) :=
  have hs : (1 : ℤ) ≤ 2 ^ 1075 := one_le_pow₀ (by norm_num)
  have hs' : ([0, 1] : List ℕ).length = 0 ∨ (2 ^ 1075 : ℤ) < ([0, 1] : List ℕ).length * 2 ^ 1075 :=
    .inr (lt_mul_left (by positivity) (by decide))
  ⟨by decide, le_rfl, hs, hs', getHyper_hypermedia_links [0, 1] 1 (2 ^ 1075) (by decide) le_rfl hs hs'⟩

/-- A page size of `2 ** 1076` makes `len / page_size` underflow to `0.0` for a one-row
dataset: `total_pages` is `0` although the exact ceiling is `1` and page `1` holds the row. -/
theorem getHyper_underflow_counterexample :
    HypermediaPagination.getHyper [0] 1 (2 ^ 1076) =
      .ok { pageSize := 1, page := 1, data := [0], nextPage := none, prevPage := none,
            totalPages := 0 } ∧
      ⌈(([0] : List ℕ).length : ℚ) / ((2 ^ 1076 : ℤ) : ℚ)⌉ = 1 := by
  have hpage : HypermediaPagination.getPage [0] 1 (2 ^ 1076) = .ok [0] := by
    have e : (2 ^ 1076 : ℤ) = ((2 ^ 1076 : ℕ) : ℤ) := (Nat.cast_pow 2 1076).symm
    rw [e, show (1 : ℤ) = ((0 : ℕ) : ℤ) + 1 from rfl,
      HypermediaPagination.getPage_eq_pageOf [0] 0 (Nat.two_pow_pos 1076),
      pageOf_zero_of_length_le Nat.one_le_two_pow]
  refine ⟨?_, ?_⟩
  · simp only [HypermediaPagination.getHyper, hpage, List.length_singleton, Nat.cast_one,
      trueDiv_underflow]
    norm_num [mathCeil]
    rfl
  · rw [Int.ceil_eq_iff]
    norm_num

/-- Past `len * 2 ^ 1075` the quotient underflows: for every non-empty dataset and every such
page size, `get_hyper(1, page_size)` returns the whole dataset and no next page but counts
`0` pages, where the exact ceiling is `1`. -/
theorem getHyper_underflow (dataset : List α) (hne : dataset ≠ []) {pageSize : ℤ}
    (hs : dataset.length * 2 ^ 1075 ≤ pageSize) :
    HypermediaPagination.getHyper dataset 1 pageSize =
      .ok { pageSize := dataset.length, page := 1, data := dataset, nextPage := none,
            prevPage := none, totalPages := 0 } ∧
      ⌈(dataset.length : ℚ) / pageSize⌉ = 1 := by
  have hL : 0 < dataset.length := List.length_pos.mpr hne
  lift pageSize to ℕ using le_trans (by positivity) hs
  have hN : dataset.length * 2 ^ 1075 ≤ pageSize := by exact_mod_cast hs
  have hle : dataset.length ≤ pageSize :=
    (Nat.le_mul_of_pos_right _ (Nat.two_pow_pos _)).trans hN
  have hN0 : 0 < pageSize := hL.trans_le hle
  have hpages : (dataset.length + pageSize - 1) / pageSize = 1 :=
    Nat.div_eq_of_lt_le (by omega) (by omega)
  constructor
  · rw [show (1 : ℤ) = ((0 : ℕ) : ℤ) + 1 from rfl,
      HypermediaPagination.getHyper_of_trueDiv 0 hN0 (trueDiv_of_underflow hN0 hN),
      pageOf_zero_of_length_le hle, hpages]
    simp [mathCeil]
  · rw [Int.ceil_eq_iff, Int.cast_one, sub_self, Int.cast_natCast]
    have hN' : (0 : ℚ) < pageSize := by exact_mod_cast hN0
    exact ⟨div_pos (by exact_mod_cast hL) hN', (div_le_one hN').mpr (by exact_mod_cast hle)⟩

theorem getHyper_underflow_one_row :
    ([0] : List ℕ) ≠ [] ∧ (([0] : List ℕ).length * 2 ^ 1075 : ℤ) ≤ 2 ^ 1076 ∧
      HypermediaPagination.getHyper [0] 1 (2 ^ 1076) =
        .ok { pageSize := ([0] : List ℕ).length, page := 1, data := [0], nextPage := none,
              prevPage := none, totalPages := 0 } ∧
      ⌈(([0] : List ℕ).length : ℚ) / ((2 ^ 1076 : ℤ) : ℚ)⌉ = 1 :=
  have hs : (([0] : List ℕ).length * 2 ^ 1075 : ℤ) ≤ 2 ^ 1076 := by
    rw [List.length_singleton, Nat.cast_one, one_mul]
    exact pow_le_pow_right₀ (by norm_num) (by norm_num)
  ⟨List.cons_ne_nil 0 [], hs, getHyper_underflow [0] (List.cons_ne_nil 0 []) hs⟩

theorem RootHypermediaPagination.getHyper_eq {dataset : List α} {pageSize : ℕ} (i : ℕ)
    (hN : 0 < pageSize) :
    RootHypermediaPagination.getHyper dataset (i + 1) pageSize =
      .ok { pageSize := (pageOf dataset pageSize i).length, page := i + 1,
            data := pageOf dataset pageSize i,
            nextPage := if i + 1 ≤ dataset.length / pageSize then some (i + 1 + 1) else none,
            prevPage := if 1 < (i : ℤ) + 1 then some (i + 1 - 1) else none,
            totalPages := (dataset.length / pageSize + 1 : ℕ) } := by
  have hN' : (pageSize : ℤ) ≠ 0 := by exact_mod_cast hN.ne'
  have hlen : (pageOf dataset pageSize i).length ≤ pageSize := List.length_take_le _ _
  have hdiv : Int.fdiv dataset.length pageSize = (dataset.length / pageSize : ℕ) := by
    rw [Int.fdiv_eq_ediv _ (Int.natCast_nonneg _), Int.natCast_div]
  simp only [RootHypermediaPagination.getHyper, hN', if_false,
    RootHypermediaPagination.getPage_eq_pageOf _ _ hN, hdiv]
  simp only [bind, Except.bind, pure, Except.pure, Except.ok.injEq, HyperPage.mk.injEq, true_and]
  refine ⟨?_, ?_, by push_cast; rfl⟩
  · split_ifs with h <;> first | rfl | (push_cast at h; omega)
  · push_cast
    split_ifs <;> first | rfl | omega

/-- The two copies of `get_hyper` return the same dictionary exactly when the page size does
not divide the length of the dataset: otherwise the root copy counts one page too many and
links to it. This holds wherever the `0x00-pagination` copy counts its pages right. -/
theorem getHyper_root_eq_iff (dataset : List α) (page pageSize : ℤ)
    (hL : dataset.length < 2 ^ 53) (hp : 1 ≤ page) (hs : 1 ≤ pageSize)
    (hs' : dataset.length = 0 ∨ pageSize < dataset.length * 2 ^ 1075) :
    RootHypermediaPagination.getHyper dataset page pageSize =
      HypermediaPagination.getHyper dataset page pageSize ↔ ¬ pageSize ∣ dataset.length := by
  obtain ⟨i, rfl⟩ := exists_nat_succ hp
  lift pageSize to ℕ using (by omega)
  have hN : 0 < pageSize := by omega
  rw [RootHypermediaPagination.getHyper_eq i hN,
    HypermediaPagination.getHyper_eq i hL hN (by exact_mod_cast hs'), Int.natCast_dvd_natCast,
    ← pageCount_eq_div_add_one_iff hN]
  simp only [Except.ok.injEq, HyperPage.mk.injEq, true_and, and_true, Nat.cast_inj]
  constructor
  · exact fun h => h.2.symm
  · intro h
    refine ⟨?_, h.symm⟩
    rw [h]
    split_ifs <;> first | rfl | omega

theorem getHyper_root_eq_iff_three_rows :
    ([0, 1, 2] : List ℕ).length < 2 ^ 53 ∧ (1 : ℤ) ≤ 2 ∧ (1 : ℤ) ≤ 2 ∧
      (([0, 1, 2] : List ℕ).length = 0 ∨ (2 : ℤ) < ([0, 1, 2] : List ℕ).length * 2 ^ 1075) ∧
      (RootHypermediaPagination.getHyper [0, 1, 2] 2 2 =
        HypermediaPagination.getHyper [0, 1, 2] 2 2 ↔ ¬ (2 : ℤ) ∣ ([0, 1, 2] : List ℕ).length) :=
  have hs' : ([0, 1, 2] : List ℕ).length = 0 ∨ (2 : ℤ) < ([0, 1, 2] : List ℕ).length * 2 ^ 1075 :=
    .inr ((by decide : (2 : ℤ) < ([0, 1, 2] : List ℕ).length).trans_le
      (le_mul_of_one_le_right (by positivity) (one_le_pow₀ (by norm_num))))
  ⟨by decide, by decide, by decide, hs',
    getHyper_root_eq_iff [0, 1, 2] 2 2 (by decide) (by decide) (by decide) hs'⟩

/-- Where the page size divides the length, the root `get_hyper` counts a page past the data
and links to it: for two rows and page size `1`, page `2` gets `total_pages` `3` and
`next_page` `3`, where the `0x00-pagination` copy answers `2` and `None`. -/
theorem getHyper_root_divisible_counterexample :
    RootHypermediaPagination.getHyper [0, 1] 2 1 =
      .ok { pageSize := 1, page := 2, data := [1], nextPage := some 3, prevPage := some 1,
            totalPages := 3 } ∧
      HypermediaPagination.getHyper [0, 1] 2 1 =
      .ok { pageSize := 1, page := 2, data := [1], nextPage := none, prevPage := some 1,
            totalPages := 2 } :=
  ⟨rfl, (HypermediaPagination.getHyper_eq 1 (by decide : ([0, 1] : List ℕ).length < 2 ^ 53)
    Nat.one_pos (.inr ((by decide : 1 < ([0, 1] : List ℕ).length).trans_le
      (Nat.le_mul_of_pos_right _ (pow_pos two_pos _))))).trans rfl⟩

end AlxBackend.Pagination
