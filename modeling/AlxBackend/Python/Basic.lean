import Mathlib.Data.List.Basic
import Mathlib.Algebra.Order.Ring.Int

/-! The parts of the Python runtime that the repository's functions rely on: the built-in
exceptions they can raise, and list slicing `xs[start:stop]` with CPython's index
adjustment. -/

namespace AlxBackend.Python

/-- The built-in exceptions raised along the modelled paths. An `assert` carries its
message when the source gives one. -/
inductive PyError where
  | assertionError (msg : Option String)
  | keyError
  | indexError
  | zeroDivisionError
  | overflowError
  deriving DecidableEq, Repr

/-- `assert cond, msg`. -/
def pyAssert (cond : Prop) [Decidable cond] (msg : Option String) : Except PyError Unit :=
  if cond then .ok () else .error (.assertionError msg)

@[simp] theorem pyAssert_of_true {cond : Prop} [Decidable cond] (h : cond) (msg : Option String) :
    pyAssert cond msg = .ok () := if_pos h

@[simp] theorem pyAssert_of_false {cond : Prop} [Decidable cond] (h : ¬ cond)
    (msg : Option String) : pyAssert cond msg = .error (.assertionError msg) := if_neg h

/-- A slice bound as CPython adjusts it for step `1`: a negative bound counts from the end,
and the result is clamped to `[0, len]`. -/
def adjustIndex (len : ℕ) (i : ℤ) : ℕ :=
  if i < 0 then (i + len).toNat else min i.toNat len

/-- `xs[start:stop]`. -/
def getSlice {α : Type*} (xs : List α) (start stop : ℤ) : List α :=
  (xs.drop (adjustIndex xs.length start)).take
    (adjustIndex xs.length stop - adjustIndex xs.length start)

theorem adjustIndex_of_nonneg {len : ℕ} {i : ℤ} (h : 0 ≤ i) :
    adjustIndex len i = min i.toNat len := by
  simp [adjustIndex, not_lt.mpr h]

theorem getSlice_of_nonneg {α : Type*} (xs : List α) {start stop : ℤ} (h0 : 0 ≤ start)
    (h1 : start ≤ stop) :
    getSlice xs start stop = (xs.drop start.toNat).take (stop - start).toNat := by
  rw [getSlice, adjustIndex_of_nonneg h0, adjustIndex_of_nonneg (h0.trans h1)]
  rcases le_or_lt xs.length start.toNat with hs | hs
  · simp [List.drop_eq_nil_of_le hs, min_eq_right hs]
  · have hlen : (xs.drop start.toNat).length = xs.length - start.toNat := List.length_drop _ _
    have hk : min stop.toNat xs.length - start.toNat =
        min (stop - start).toNat (xs.drop start.toNat).length := by omega
    rw [min_eq_left hs.le, hk, ← List.take_take, List.take_of_length_le le_rfl]

end AlxBackend.Python
