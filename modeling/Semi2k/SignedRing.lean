import Semi2k.Sharing

/-!
# Signed readings of the ring

The truncation kernels treat a `k`-bit ring element as a two's-complement integer.  This
module reads a ring element as the one integer of `[-2^(k-1), 2^(k-1))` in its class, and
proves the floor facts the truncations rest on: two floors of a sum are off by at most one,
and SecureML's local truncation of two shares is exact up to that one when neither the
share nor the secret comes near the ends of the range.
-/

namespace Semi2k

/-- A ring element read as a two's-complement integer. -/
def signedVal {k : ℕ} (a : ZMod (2 ^ k)) : ℤ := toSigned k a.val

section Signed

variable {k : ℕ}

theorem two_pow_eq_two_mul (hk : 0 < k) : (2 : ℤ) ^ k = 2 * 2 ^ (k - 1) := by
  rw [← pow_succ', Nat.sub_add_cancel hk]

theorem signedVal_natCast {v : ℕ} (hv : v < 2 ^ k) :
    signedVal (v : ZMod (2 ^ k)) = toSigned k v := by
  rw [signedVal, ZMod.val_natCast, Nat.mod_eq_of_lt hv]

/-- The signed reading is in the element's class. -/
@[simp] theorem intCast_signedVal (a : ZMod (2 ^ k)) : ((signedVal a : ℤ) : ZMod (2 ^ k)) = a := by
  unfold signedVal toSigned
  split_ifs
  · simp
  · have h : ((2 ^ k : ℕ) : ZMod (2 ^ k)) = 0 := ZMod.natCast_self _
    push_cast at h
    simp [h]

/-- An integer of the signed range reads back as itself. -/
theorem signedVal_intCast (hk : 0 < k) {T : ℤ} (hlo : -2 ^ (k - 1) ≤ T) (hhi : T < 2 ^ (k - 1)) :
    signedVal (T : ZMod (2 ^ k)) = T := by
  have hv := ZMod.val_intCast (n := 2 ^ k) T
  have h2 := two_pow_eq_two_mul hk
  push_cast at hv
  unfold signedVal toSigned
  split_ifs with h
  · have : ((T : ZMod (2 ^ k)).val : ℤ) < 2 ^ (k - 1) := by exact_mod_cast h
    rcases lt_or_le T 0 with hT | hT
    · rw [← Int.add_emod_self, Int.emod_eq_of_lt (by omega) (by omega)] at hv
      omega
    · rw [Int.emod_eq_of_lt hT (by omega)] at hv
      omega
  · have : (2 : ℤ) ^ (k - 1) ≤ (T : ZMod (2 ^ k)).val := by exact_mod_cast not_lt.mp h
    rcases lt_or_le T 0 with hT | hT
    · rw [← Int.add_emod_self, Int.emod_eq_of_lt (by omega) (by omega)] at hv
      omega
    · rw [Int.emod_eq_of_lt hT (by omega)] at hv
      omega

/-- The signed reading is the one integer of the signed range in the element's class. -/
theorem signedVal_eq_of_intCast (hk : 0 < k) {a : ZMod (2 ^ k)} {T : ℤ} (h : (T : ZMod (2 ^ k)) = a)
    (hlo : -2 ^ (k - 1) ≤ T) (hhi : T < 2 ^ (k - 1)) : signedVal a = T :=
  h ▸ signedVal_intCast hk hlo hhi

/-- A signed result written back into the ring is in its class. -/
@[simp] theorem natCast_ofSigned (z : ℤ) : ((ofSigned k z : ℕ) : ZMod (2 ^ k)) = z := by
  have h : (0 : ℤ) ≤ z % 2 ^ k := Int.emod_nonneg z (by positivity)
  have hc : (((2 ^ k : ℕ) : ℤ)) = 2 ^ k := by push_cast; rfl
  rw [ofSigned, ← Int.cast_natCast, Int.toNat_of_nonneg h, ← ZMod.intCast_mod z (2 ^ k), hc]

/-- `ring_arshift` divides the signed reading, rounding down. -/
theorem arshift_data_cast {f : FieldType} (x : NdArrayRef) (hx : x.eltype.field = f) (b i : ℕ) :
    ((x.arshift [b]).data i : ZMod (2 ^ f.width)) =
      ((signedVal (x.data i : ZMod (2 ^ f.width)) / 2 ^ b : ℤ) : ZMod (2 ^ f.width)) := by
  subst hx
  simp [NdArrayRef.arshift, NdArrayRef.shiftAt, signedVal_natCast (x.data_lt i)]

end Signed

/-! ## Floors -/

section Floor

/-- Two floors add up to the floor of the sum, or to one less. -/
theorem ediv_add_ediv_cases {p : ℤ} (hp : 0 < p) (a b : ℤ) :
    a / p + b / p = (a + b) / p ∨ a / p + b / p = (a + b) / p - 1 := by
  have hsplit : (a + b) / p = (a % p + b % p) / p + (a / p + b / p) := by
    rw [← Int.add_mul_ediv_left _ _ hp.ne']
    congr 1
    rw [mul_add]
    linarith only [Int.emod_add_ediv a p, Int.emod_add_ediv b p]
  have h0 : 0 ≤ (a % p + b % p) / p :=
    Int.ediv_nonneg (by linarith only [Int.emod_nonneg a hp.ne', Int.emod_nonneg b hp.ne']) hp.le
  have h1 : (a % p + b % p) / p < 2 := by
    rw [Int.ediv_lt_iff_lt_mul hp]
    linarith only [Int.emod_lt_of_pos a hp, Int.emod_lt_of_pos b hp]
  omega

/-- Shifting right does not leave a symmetric range. -/
theorem ediv_two_pow_bounds {s : ℤ} {l : ℕ} (d : ℕ) (hlo : -2 ^ l ≤ s) (hhi : s < 2 ^ l) :
    -2 ^ l ≤ s / 2 ^ d ∧ s / 2 ^ d < 2 ^ l := by
  have hp : (1 : ℤ) ≤ 2 ^ d := one_le_pow₀ (by norm_num)
  have hl : (2 : ℤ) ^ l ≤ 2 ^ l * 2 ^ d := le_mul_of_one_le_right (by positivity) hp
  constructor
  · rw [Int.le_ediv_iff_mul_le (by omega)]
    linarith
  · rw [Int.ediv_lt_iff_lt_mul (by omega)]
    linarith

variable {k l : ℕ}

theorem two_pow_succ_le (hl : l + 1 < k) : (2 : ℤ) ^ l * 2 ≤ 2 ^ (k - 1) := by
  rw [← pow_succ]
  exact pow_le_pow_right₀ (by norm_num) (by omega)

/-- SecureML's local truncation, made exact: when one share keeps `2^l` away from the ends of
the signed range and the secret is within `2^l` of zero, the two shares' shifts add up to the
shifted secret or to one less. -/
theorem signedVal_ediv_add (hl : l + 1 < k) (d : ℕ) {u v : ZMod (2 ^ k)}
    (hu : -2 ^ (k - 1) + 2 ^ l ≤ signedVal u ∧ signedVal u < 2 ^ (k - 1) - 2 ^ l)
    (hs : -2 ^ l ≤ signedVal (u + v) ∧ signedVal (u + v) < 2 ^ l) :
    signedVal ((signedVal u / 2 ^ d + signedVal v / 2 ^ d : ℤ) : ZMod (2 ^ k)) =
        signedVal (u + v) / 2 ^ d ∨
      signedVal ((signedVal u / 2 ^ d + signedVal v / 2 ^ d : ℤ) : ZMod (2 ^ k)) =
        signedVal (u + v) / 2 ^ d - 1 := by
  have hk : 0 < k := by omega
  have hlk := two_pow_succ_le hl
  have hv : signedVal v = signedVal (u + v) - signedVal u :=
    signedVal_eq_of_intCast hk (by push_cast; simp) (by omega) (by omega)
  have hq := ediv_two_pow_bounds d hs.1 hs.2
  rw [hv]
  rcases ediv_add_ediv_cases (pow_pos (by norm_num : (0 : ℤ) < 2) d) (signedVal u)
    (signedVal (u + v) - signedVal u) with h | h <;>
  rw [h, add_sub_cancel] <;> [left; right] <;> exact signedVal_intCast hk (by omega) (by omega)

end Floor

end Semi2k
