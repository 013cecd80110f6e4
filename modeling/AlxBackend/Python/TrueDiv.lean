import AlxBackend.Python.Basic
import Mathlib.Data.Int.Log
import Mathlib.Data.Rat.Floor
import Mathlib.Algebra.Order.Field.Power
import Mathlib.Tactic.Linarith
import Mathlib.Tactic.Positivity

/-! Python's true division of two ints and `math.ceil`, as `get_hyper` uses them to count
pages. CPython's `long_true_divide` rounds the exact quotient once, to the nearest binary64
value with ties to even, subnormals included: `roundPos` rounds to a multiple of the gap
`2 ^ quantumExp x` between doubles at `x`, with `roundHalfEven` on the scaled value. For a
length below `2 ^ 53` the quotient keeps its ceiling unless it rounds to `0.0`, which it does
exactly for a page size of at least `len * 2 ^ 1075`. -/

namespace AlxBackend.Python

def roundHalfEven (y : ℚ) : ℤ :=
  if Int.fract y < 1 / 2 then ⌊y⌋
  else if 1 / 2 < Int.fract y then ⌊y⌋ + 1
  else if ⌊y⌋ % 2 = 0 then ⌊y⌋ else ⌊y⌋ + 1

def quantumExp (x : ℚ) : ℤ :=
  max (Int.log 2 x - 52) (-1074)

def roundPos (x : ℚ) : ℚ :=
  roundHalfEven (x / 2 ^ quantumExp x) * 2 ^ quantumExp x

/-- The binary64 value nearest to `x`; round-to-nearest-even is symmetric about zero. -/
def roundBinary64 (x : ℚ) : ℚ :=
  if x < 0 then -roundPos (-x) else roundPos x

/-- `a / b` on Python ints: the exact quotient rounded once to binary64; `ZeroDivisionError`
for `b = 0` and `OverflowError` when the rounded value is past the largest finite double. -/
def trueDiv (a b : ℤ) : Except PyError ℚ :=
  if b = 0 then .error .zeroDivisionError
  else if 2 ^ 1024 ≤ |roundBinary64 ((a : ℚ) / b)| then .error .overflowError
  else .ok (roundBinary64 ((a : ℚ) / b))

/-- `math.ceil` of a finite float. -/
def mathCeil (x : ℚ) : ℤ := ⌈x⌉

theorem roundHalfEven_cases (y : ℚ) :
    roundHalfEven y = ⌊y⌋ ∨ (roundHalfEven y = ⌊y⌋ + 1 ∧ 1 / 2 ≤ Int.fract y) := by
  unfold roundHalfEven
  split_ifs with h1 h2 h3
  · exact .inl rfl
  · exact .inr ⟨rfl, h2.le⟩
  · exact .inl rfl
  · exact .inr ⟨rfl, not_lt.mp h1⟩

theorem floor_le_roundHalfEven (y : ℚ) : ⌊y⌋ ≤ roundHalfEven y := by
  rcases roundHalfEven_cases y with h | ⟨h, -⟩ <;> omega

theorem roundHalfEven_le_of_le {y : ℚ} {J : ℤ} (h : y ≤ J) : roundHalfEven y ≤ J := by
  have hfl := Int.floor_add_fract y
  rcases roundHalfEven_cases y with h' | ⟨h', hf⟩
  · rw [h']
    exact_mod_cast (Int.floor_le y).trans h
  · have : (⌊y⌋ : ℚ) < J := by linarith
    rw [h']
    exact_mod_cast this

theorem lt_roundHalfEven {y : ℚ} {Q : ℤ} (h : Q + 1 / 2 < y) : Q < roundHalfEven y := by
  have hQ : Q ≤ ⌊y⌋ := Int.le_floor.mpr (by linarith)
  rcases hQ.lt_or_eq with hlt | heq
  · exact hlt.trans_le (floor_le_roundHalfEven y)
  · have hf : 1 / 2 < Int.fract y := by rw [Int.fract, ← heq]; linarith
    rw [roundHalfEven, if_neg (not_lt.mpr hf.le), if_pos hf]
    omega

theorem roundPos_eq {x : ℚ} {n : ℕ} (hn : quantumExp x = -n) :
    roundPos x = roundHalfEven (x * 2 ^ n) / 2 ^ n := by
  rw [roundPos, hn, zpow_neg, zpow_natCast, div_inv_eq_mul, div_eq_mul_inv]

theorem quantumExp_nonpos {x : ℚ} (hx : 0 < x) (h53 : x < 2 ^ 53) :
    ∃ n : ℕ, quantumExp x = -n := by
  have hlog : Int.log 2 x < 53 :=
    (Int.lt_zpow_iff_log_lt (by norm_num) hx).1 (by exact_mod_cast h53)
  exact ⟨(-quantumExp x).toNat, by unfold quantumExp; omega⟩

theorem lt_two_pow_of_quantumExp {a b n : ℕ} (ha : a < 2 ^ 53) (hb0 : 0 < b) (ha0 : 0 < a)
    (hn : quantumExp ((a : ℚ) / b) = -n) : (b : ℚ) < 2 ^ (n + 1) ∨ n = 1074 := by
  have hx : (0 : ℚ) < a / b := div_pos (Nat.cast_pos.mpr ha0) (Nat.cast_pos.mpr hb0)
  rcases le_total (Int.log 2 ((a : ℚ) / b) - 52) (-1074) with hsub | hnorm
  · right
    unfold quantumExp at hn
    omega
  · left
    have he : Int.log 2 ((a : ℚ) / b) = 52 - n := by unfold quantumExp at hn; omega
    have hle := Int.zpow_log_le_self (b := 2) (by norm_num) hx
    rw [he, le_div_iff₀ (by positivity)] at hle
    have h53 : (2 : ℚ) ^ (53 : ℤ) = 2 ^ ((n + 1 : ℕ) : ℤ) * 2 ^ (52 - n : ℤ) := by
      rw [← zpow_add₀ (by norm_num)]; congr 1; push_cast; ring
    have hpos : (0 : ℚ) < 2 ^ (52 - n : ℤ) := by positivity
    have ha' : (a : ℚ) < 2 ^ (53 : ℤ) := by exact_mod_cast ha
    rw [h53, zpow_natCast] at ha'
    rw [Nat.cast_ofNat] at hle
    exact (mul_lt_mul_left hpos).mp (by linarith)

theorem ceil_sub_one_lt_roundHalfEven (a : ℕ) {b n : ℕ} (hb0 : 0 < b) (hgap : (b : ℚ) < 2 ^ (n + 1)) :
    (⌈(a : ℚ) / b⌉ - 1) * 2 ^ n < roundHalfEven ((a : ℚ) / b * 2 ^ n) := by
  have hb' : (0 : ℚ) < b := Nat.cast_pos.mpr hb0
  have hpow : (0 : ℚ) < 2 ^ n := by positivity
  set c := ⌈(a : ℚ) / b⌉
  have hint : (b : ℤ) * (c - 1) + 1 ≤ a := by
    have hc : ((c - 1 : ℤ) : ℚ) < a / b := by
      have := Int.ceil_lt_add_one ((a : ℚ) / b); push_cast; linarith
    have : ((b * (c - 1) : ℤ) : ℚ) < (a : ℤ) := by
      push_cast at hc ⊢; rw [lt_div_iff₀ hb'] at hc; linarith
    exact_mod_cast this
  apply lt_roundHalfEven
  have hint' : (b : ℚ) * (c - 1) + 1 ≤ a := by exact_mod_cast hint
  have key : (a : ℚ) / b * 2 ^ n - ((c - 1) * 2 ^ n + 2 ^ n / b) =
      (a - b * (c - 1) - 1) * 2 ^ n / b := by
    field_simp; ring
  have hnum : 0 ≤ ((a : ℚ) - b * (c - 1) - 1) * 2 ^ n / b :=
    div_nonneg (mul_nonneg (by linarith) hpow.le) hb'.le
  have hhalf : (1 : ℚ) / 2 < 2 ^ n / b := by
    rw [lt_div_iff₀ hb']; rw [pow_succ] at hgap; linarith
  push_cast
  linarith

theorem ceil_roundPos_div_of_le {a b n : ℕ} (hab : a ≤ b) (hb0 : 0 < b)
    (hn : quantumExp ((a : ℚ) / b) = -n) (hhalf : b < a * 2 ^ (n + 1)) :
    ⌈roundPos ((a : ℚ) / b)⌉ = 1 := by
  have hb' : (0 : ℚ) < b := Nat.cast_pos.mpr hb0
  have hpow : (0 : ℚ) < 2 ^ n := by positivity
  have hlo : ((0 : ℤ) : ℚ) + 1 / 2 < (a : ℚ) / b * 2 ^ n := by
    have : (b : ℚ) < a * 2 ^ (n + 1) := by exact_mod_cast hhalf
    rw [div_mul_eq_mul_div, lt_div_iff₀ hb']
    rw [pow_succ] at this
    linarith
  have hhi : (a : ℚ) / b * 2 ^ n ≤ ((2 ^ n : ℤ) : ℚ) := by
    push_cast
    exact mul_le_of_le_one_left hpow.le ((div_le_one hb').mpr (by exact_mod_cast hab))
  have hpos : (0 : ℚ) < roundHalfEven ((a : ℚ) / b * 2 ^ n) := by
    exact_mod_cast lt_roundHalfEven hlo
  have hle : (roundHalfEven ((a : ℚ) / b * 2 ^ n) : ℚ) ≤ 2 ^ n := by
    exact_mod_cast roundHalfEven_le_of_le hhi
  rw [roundPos_eq hn, Int.ceil_eq_iff, Int.cast_one, sub_self]
  exact ⟨div_pos hpos hpow, (div_le_one hpow).mpr hle⟩

theorem ceil_roundPos_div {a b : ℕ} (ha : a < 2 ^ 53) (hb0 : 0 < b)
    (hb : a = 0 ∨ b < a * 2 ^ 1075) : ⌈roundPos ((a : ℚ) / b)⌉ = ⌈(a : ℚ) / b⌉ := by
  rcases Nat.eq_zero_or_pos a with rfl | ha0
  · simp [roundPos, roundHalfEven]
  have hx : (0 : ℚ) < a / b := div_pos (Nat.cast_pos.mpr ha0) (Nat.cast_pos.mpr hb0)
  obtain ⟨n, hn⟩ := quantumExp_nonpos hx
    ((div_le_self (Nat.cast_nonneg a) (by exact_mod_cast hb0)).trans_lt (by exact_mod_cast ha))
  rcases lt_or_le (b : ℚ) (2 ^ (n + 1)) with hgap | hgap
  · have hlow := ceil_sub_one_lt_roundHalfEven a hb0 hgap
    have hpow : (0 : ℚ) < 2 ^ n := by positivity
    have hup : roundHalfEven ((a : ℚ) / b * 2 ^ n) ≤ ⌈(a : ℚ) / b⌉ * 2 ^ n :=
      roundHalfEven_le_of_le (by push_cast; exact mul_le_mul_of_nonneg_right (Int.le_ceil _) hpow.le)
    rw [roundPos_eq hn]
    apply le_antisymm
    · rw [Int.ceil_le, div_le_iff₀ hpow]
      exact_mod_cast hup
    · rw [← Int.sub_one_lt_iff, Int.lt_ceil, lt_div_iff₀ hpow]
      exact_mod_cast hlow
  · have h1075 : n + 1 = 1075 := by
      have := (lt_two_pow_of_quantumExp ha hb0 ha0 hn).resolve_left hgap.not_lt
      omega
    have hab : (a : ℚ) ≤ b :=
      calc (a : ℚ) ≤ 2 ^ 53 := by exact_mod_cast ha.le
        _ ≤ 2 ^ (n + 1) := pow_le_pow_right₀ one_le_two (by omega)
        _ ≤ b := hgap
    rw [ceil_roundPos_div_of_le (by exact_mod_cast hab) hb0 hn (h1075 ▸ hb.resolve_left ha0.ne'),
      eq_comm, Int.ceil_eq_iff, Int.cast_one, sub_self]
    exact ⟨hx, (div_le_one (by positivity)).mpr hab⟩

theorem roundPos_nonneg {x : ℚ} (hx : 0 ≤ x) : 0 ≤ roundPos x := by
  have hp : (0 : ℚ) < 2 ^ quantumExp x := zpow_pos (by norm_num) _
  have h0 : (0 : ℤ) ≤ roundHalfEven (x / 2 ^ quantumExp x) :=
    (Int.floor_nonneg.mpr (div_nonneg hx hp.le)).trans (floor_le_roundHalfEven _)
  exact mul_nonneg (by exact_mod_cast h0) hp.le

theorem ceil_div_eq_natDiv (a : ℕ) {b : ℕ} (hb0 : 0 < b) :
    ⌈(a : ℚ) / b⌉ = ((a + b - 1) / b : ℕ) := by
  have hb' : (0 : ℚ) < b := Nat.cast_pos.mpr hb0
  have h1 := Nat.lt_div_mul_add (a := a + b - 1) hb0
  have h2 := Nat.div_mul_le_self (a + b - 1) b
  generalize (a + b - 1) / b = q at h1 h2 ⊢
  have hlo : (a : ℚ) ≤ q * b := by exact_mod_cast (by omega : a ≤ q * b)
  have hhi : (q : ℚ) * b < a + b := by exact_mod_cast (by omega : q * b < a + b)
  rw [Int.ceil_eq_iff, div_le_iff₀ hb', lt_div_iff₀ hb', Int.cast_natCast]
  constructor <;> linarith

theorem mathCeil_trueDiv {a b : ℕ} (ha : a < 2 ^ 53) (hb0 : 0 < b)
    (hb : a = 0 ∨ b < a * 2 ^ 1075) :
    ∃ v, trueDiv a b = .ok v ∧ mathCeil v = ((a + b - 1) / b : ℕ) := by
  have hceil := ceil_roundPos_div ha hb0 hb
  rw [ceil_div_eq_natDiv a hb0] at hceil
  have hx : (0 : ℚ) ≤ a / b := div_nonneg (Nat.cast_nonneg a) (Nat.cast_nonneg b)
  have hq : (a + b - 1) / b ≤ a := by
    have := Nat.le_mul_of_pos_right a hb0
    exact Nat.lt_succ_iff.mp ((Nat.div_lt_iff_lt_mul hb0).mpr (by rw [Nat.succ_mul]; omega))
  have hle : roundPos ((a : ℚ) / b) ≤ 2 ^ 53 := by
    have := (Int.le_ceil (roundPos ((a : ℚ) / b))).trans_eq (congrArg _ hceil)
    exact this.trans (by exact_mod_cast hq.trans ha.le)
  have hsmall : ¬ (2 : ℚ) ^ 1024 ≤ |roundPos ((a : ℚ) / b)| := by
    rw [abs_of_nonneg (roundPos_nonneg hx), not_le]
    exact hle.trans_lt (pow_lt_pow_right₀ (by norm_num) (by norm_num))
  refine ⟨roundPos ((a : ℚ) / b), ?_, hceil⟩
  have hb0' : ((b : ℕ) : ℤ) ≠ 0 := by exact_mod_cast hb0.ne'
  simp only [trueDiv, hb0', if_false, Int.cast_natCast, roundBinary64, if_neg (not_lt.mpr hx),
    hsmall]

theorem roundHalfEven_of_le_half {y : ℚ} (h0 : 0 ≤ y) (h : y ≤ 1 / 2) :
    roundHalfEven y = 0 := by
  have hfl : ⌊y⌋ = 0 := Int.floor_eq_zero_iff.mpr ⟨h0, by linarith⟩
  have hfract : Int.fract y = y := by rw [Int.fract, hfl, Int.cast_zero, sub_zero]
  rw [roundHalfEven, hfract, hfl, if_neg (not_lt.mpr h), if_pos (Int.zero_emod 2), ite_self]

theorem roundPos_of_le {x : ℚ} (h0 : 0 ≤ x) (h : x ≤ 2 ^ (-1075 : ℤ)) : roundPos x = 0 := by
  have hq : (2 : ℚ) ^ (-1074 : ℤ) ≤ 2 ^ quantumExp x :=
    zpow_le_zpow_right₀ one_le_two (le_max_right _ _)
  have hy : x / 2 ^ quantumExp x ≤ 1 / 2 :=
    calc x / 2 ^ quantumExp x ≤ 2 ^ (-1075 : ℤ) / 2 ^ (-1074 : ℤ) :=
          div_le_div₀ (by positivity) h (by positivity) hq
      _ = 1 / 2 := by rw [← zpow_sub₀ two_ne_zero]; norm_num
  rw [roundPos, roundHalfEven_of_le_half (div_nonneg h0 (by positivity)) hy, Int.cast_zero,
    zero_mul]

theorem trueDiv_of_underflow {a b : ℕ} (hb0 : 0 < b) (hb : a * 2 ^ 1075 ≤ b) :
    trueDiv a b = .ok 0 := by
  have hb' : (0 : ℚ) < b := Nat.cast_pos.mpr hb0
  have hx : (0 : ℚ) ≤ a / b := div_nonneg (Nat.cast_nonneg a) hb'.le
  have hle : (a : ℚ) / b ≤ 2 ^ (-1075 : ℤ) := by
    have hbq : ((a * 2 ^ 1075 : ℕ) : ℚ) ≤ b := Nat.cast_le.mpr hb
    push_cast at hbq
    rwa [div_le_iff₀ hb', zpow_neg, zpow_ofNat, inv_mul_eq_div, le_div_iff₀ (by positivity)]
  have hb0' : ((b : ℕ) : ℤ) ≠ 0 := by exact_mod_cast hb0.ne'
  simp [trueDiv, hb0', roundBinary64, not_lt.mpr hx, roundPos_of_le hx hle]

theorem trueDiv_underflow : trueDiv 1 (2 ^ 1076) = .ok 0 := by
  have h := trueDiv_of_underflow (Nat.two_pow_pos 1076)
    (by rw [one_mul]; exact pow_le_pow_right₀ one_le_two (by omega) : 1 * 2 ^ 1075 ≤ 2 ^ 1076)
  rwa [Nat.cast_one, Nat.cast_pow, Nat.cast_ofNat] at h

theorem trueDiv_ok {a b : ℕ} (ha : a < 2 ^ 53) (hb0 : 0 < b) : ∃ v, trueDiv a b = .ok v := by
  by_cases h : a = 0 ∨ b < a * 2 ^ 1075
  · exact (mathCeil_trueDiv ha hb0 h).imp fun _ hv => hv.1
  · push_neg at h
    exact ⟨0, trueDiv_of_underflow hb0 h.2⟩

end AlxBackend.Python
