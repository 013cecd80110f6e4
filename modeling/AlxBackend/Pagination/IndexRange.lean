import AlxBackend.Python.Basic
import Mathlib.Tactic.Ring

/-! The `index_range` helpers of the pagination exercises. Two compute the bounds of a page
in closed form; the helper of `0-simple_helper_function.py`, copied into the root
`1-simple_pagination.py`, reaches them with a `for` loop over `range(page)`. -/

namespace AlxBackend.Pagination

/-- `for _ in range(n): start = end; end += page_size`, run from `(start, end)`. -/
def rangeLoop (pageSize : ℤ) : ℕ → ℤ × ℤ → ℤ × ℤ
  | 0, se => se
  | n + 1, (_, e) => rangeLoop pageSize n (e, e + pageSize)

theorem rangeLoop_succ (pageSize : ℤ) (n : ℕ) (s e : ℤ) :
    rangeLoop pageSize (n + 1) (s, e) = (e + n * pageSize, e + (n + 1) * pageSize) := by
  induction n generalizing s e with
  | zero => simp [rangeLoop]
  | succ n ih =>
    rw [rangeLoop, ih]
    ext <;> push_cast <;> ring

namespace SimpleHelperFunction

/-- `index_range` of `0-simple_helper_function.py`: `start, end = 0, 0`, then the loop over
`range(page)`, which runs `page` times for a positive `page` and never otherwise. -/
def indexRange (page pageSize : ℤ) : ℤ × ℤ :=
  rangeLoop pageSize page.toNat (0, 0)

theorem indexRange_of_pos {page : ℤ} (pageSize : ℤ) (h : 1 ≤ page) :
    indexRange page pageSize = ((page - 1) * pageSize, page * pageSize) := by
  obtain ⟨n, rfl⟩ : ∃ n : ℕ, page = n + 1 := ⟨(page - 1).toNat, by omega⟩
  rw [indexRange, show ((n : ℤ) + 1).toNat = n + 1 by omega, rangeLoop_succ]
  simp

theorem indexRange_of_nonpos {page : ℤ} (pageSize : ℤ) (h : page ≤ 0) :
    indexRange page pageSize = (0, 0) := by
  rw [indexRange, show page.toNat = 0 by omega, rangeLoop]

end SimpleHelperFunction

namespace RootSimplePagination

/-- `index_range` of the root `1-simple_pagination.py`: the same loop. -/
def indexRange (page pageSize : ℤ) : ℤ × ℤ :=
  rangeLoop pageSize page.toNat (0, 0)

end RootSimplePagination

namespace SimplePagination

/-- `index_range` of `0x00-pagination/1-simple_pagination.py`. -/
def indexRange (page pageSize : ℤ) : ℤ × ℤ :=
  let startIndex := (page - 1) * pageSize
  (startIndex, startIndex + pageSize)

theorem indexRange_eq (page pageSize : ℤ) :
    indexRange page pageSize = ((page - 1) * pageSize, page * pageSize) := by
  simp only [indexRange, Prod.mk.injEq, true_and]
  ring

end SimplePagination

namespace HypermediaPagination

/-- `index_range` of `0x00-pagination/2-hypermedia_pagination.py`. -/
def indexRange (page pageSize : ℤ) : ℤ × ℤ :=
  ((page - 1) * pageSize, page * pageSize)

end HypermediaPagination

/-- For every positive page and every page size, negative ones included, the loop of both
copies ends on the closed form that `0x00-pagination/1-simple_pagination.py` computes. -/
theorem indexRange_loop_eq_closedForm (page pageSize : ℤ) (h : 1 ≤ page) :
    SimpleHelperFunction.indexRange page pageSize = ((page - 1) * pageSize, page * pageSize) ∧
      RootSimplePagination.indexRange page pageSize =
        SimpleHelperFunction.indexRange page pageSize ∧
      SimplePagination.indexRange page pageSize =
        SimpleHelperFunction.indexRange page pageSize := by
  rw [SimpleHelperFunction.indexRange_of_pos pageSize h, SimplePagination.indexRange_eq]
  exact ⟨rfl, SimpleHelperFunction.indexRange_of_pos pageSize h, rfl⟩

theorem indexRange_loop_page_three :
    (1 : ℤ) ≤ 3 ∧ (SimpleHelperFunction.indexRange 3 (-4) = ((3 - 1) * -4, 3 * -4) ∧
      RootSimplePagination.indexRange 3 (-4) = SimpleHelperFunction.indexRange 3 (-4) ∧
      SimplePagination.indexRange 3 (-4) = SimpleHelperFunction.indexRange 3 (-4)) :=
  ⟨by decide, indexRange_loop_eq_closedForm 3 (-4) (by decide)⟩

end AlxBackend.Pagination
