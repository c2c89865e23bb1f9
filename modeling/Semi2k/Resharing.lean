import Semi2k.SignedRing
import Mathlib.Tactic.LinearCombination

/-!
# Moving the other parties' shares

Privacy of a masked opening is a statement about two runs: a sharing, and another that
agrees with it on party `j`, put the same messages on the wire once the other parties'
correlated randomness is moved by what their inputs differ by.  This module builds those
moves as bijections of one draw of the source.  Each share is shifted in the ring, party
`j`'s shares not at all, and one other party absorbs into a dependent share what the shift
changes in the source's relation (`Σ a * Σ b = Σ c` and its kin), so that the relation holds
after the move exactly when it held before.
-/

namespace Semi2k

/-! ## Shifting in the ring -/

section Shift

variable {w : ℕ}

/-- Add `d` to the residue of `v` modulo `2 ^ w` and keep the rest of `v`: a bijection of
the naturals that adds `d` in the ring. -/
def shiftRes (w : ℕ) (d : ZMod (2 ^ w)) (v : ℕ) : ℕ :=
  v / 2 ^ w * 2 ^ w + ((v : ZMod (2 ^ w)) + d).val

@[simp] theorem shiftRes_cast (d : ZMod (2 ^ w)) (v : ℕ) :
    ((shiftRes w d v : ℕ) : ZMod (2 ^ w)) = v + d := by
  simp [shiftRes]

theorem shiftRes_div (d : ZMod (2 ^ w)) (v : ℕ) : shiftRes w d v / 2 ^ w = v / 2 ^ w := by
  rw [shiftRes, Nat.add_comm, Nat.add_mul_div_right _ _ (Nat.two_pow_pos w),
    Nat.div_eq_of_lt (ZMod.val_lt _), Nat.zero_add]

@[simp] theorem shiftRes_shiftRes (d e : ZMod (2 ^ w)) (v : ℕ) :
    shiftRes w e (shiftRes w d v) = shiftRes w (d + e) v := by
  rw [shiftRes, shiftRes_div, shiftRes_cast, add_assoc]; rfl

@[simp] theorem shiftRes_zero (v : ℕ) : shiftRes w 0 v = v := by
  rw [shiftRes, add_zero, ZMod.val_natCast, Nat.div_add_mod']

/-- An array of elements shifted elementwise. -/
def shiftArr (w : ℕ) (d : ℕ → ZMod (2 ^ w)) (g : ℕ → ℕ) : ℕ → ℕ :=
  fun idx => shiftRes w (d idx) (g idx)

@[simp] theorem shiftArr_apply (d : ℕ → ZMod (2 ^ w)) (g : ℕ → ℕ) (idx : ℕ) :
    shiftArr w d g idx = shiftRes w (d idx) (g idx) := rfl

@[simp] theorem shiftArr_shiftArr (d e : ℕ → ZMod (2 ^ w)) (g : ℕ → ℕ) :
    shiftArr w e (shiftArr w d g) = shiftArr w (d + e) g := by
  funext idx; simp

@[simp] theorem shiftArr_zero (g : ℕ → ℕ) : shiftArr w 0 g = g := by
  funext idx; simp

end Shift

/-! ## Bijections of one draw -/

/-- The shares one draw hands the parties: two arrays each. -/
abbrev Shares2 (N : ℕ) := Fin N → (ℕ → ℕ) × (ℕ → ℕ)

/-- The shares one draw hands the parties: three arrays each. -/
abbrev Shares3 (N : ℕ) := Fin N → (ℕ → ℕ) × (ℕ → ℕ) × (ℕ → ℕ)

/-- A bijection of one draw's shares that leaves party `j`'s shares alone and keeps the
source's relation `R`. -/
structure ShareBijection {N : ℕ} (S : Type) (j : Fin N) (R : (Fin N → S) → Prop) where
  toEquiv : (Fin N → S) ≃ (Fin N → S)
  fixes : ∀ t, toEquiv t j = t j
  preserves : ∀ t, R (toEquiv t) ↔ R t

variable {N : ℕ} {w : ℕ}

/-- The ring reading of each party's array. -/
def ringRead (g : Fin N → ℕ → ℕ) : Fin N → ℕ → ZMod (2 ^ w) :=
  fun i idx => (g i idx : ZMod (2 ^ w))

@[simp] theorem ringRead_apply (g : Fin N → ℕ → ℕ) (i : Fin N) (idx : ℕ) :
    (ringRead g i idx : ZMod (2 ^ w)) = g i idx := rfl

theorem ringRead_shiftArr (d : Fin N → ℕ → ZMod (2 ^ w)) (g : Fin N → ℕ → ℕ) :
    ringRead (w := w) (fun i => shiftArr w (d i) (g i)) = ringRead g + d := by
  funext i idx; simp

/-- A shift on party `k` only. -/
def onParty (k : Fin N) (d : ℕ → ZMod (2 ^ w)) : Fin N → ℕ → ZMod (2 ^ w) :=
  fun i => if i = k then d else 0

theorem sum_onParty (k : Fin N) (d : ℕ → ZMod (2 ^ w)) (g : Fin N → ℕ → ℕ) (idx : ℕ) :
    ∑ i, ((shiftArr w (onParty k d i) (g i) idx : ℕ) : ZMod (2 ^ w)) =
      ∑ i, (g i idx : ZMod (2 ^ w)) + d idx := by
  simp only [shiftArr_apply, shiftRes_cast, Finset.sum_add_distrib, onParty]
  congr 1
  rw [Finset.sum_eq_single k (fun i _ hi => by simp [hi]) (by simp)]
  simp

/-- Moving the masks and absorbing the change of `F` keeps `Σ dependent = F (masks)` at
every index where it held, and nowhere else. -/
theorem absorb_iff {A A' : ℕ → ZMod (2 ^ w)} {F F' : ℕ → ZMod (2 ^ w)} {P : ℕ → Prop}
    (h : ∀ idx, A' idx = A idx + (F' idx - F idx)) :
    (∀ idx, P idx → A' idx = F' idx) ↔ ∀ idx, P idx → A idx = F idx := by
  refine forall_congr' fun idx => imp_congr_right fun _ => ?_
  rw [h]
  constructor <;> intro e <;> linear_combination e

section Shear

variable (w) (k : Fin N)

/-- Move the first arrays by `d` and let party `k`'s second array absorb what that changes
in `F` of the first arrays. -/
def shear2 (d : Fin N → ℕ → ZMod (2 ^ w))
    (F : (Fin N → ℕ → ZMod (2 ^ w)) → ℕ → ZMod (2 ^ w)) : Shares2 N ≃ Shares2 N where
  toFun t i := (shiftArr w (d i) (t i).1,
    shiftArr w (onParty k (F (ringRead (fun i => (t i).1) + d) - F (ringRead fun i => (t i).1)) i)
      (t i).2)
  invFun t i := (shiftArr w (-d i) (t i).1,
    shiftArr w (onParty k (F (ringRead (fun i => (t i).1) - d) - F (ringRead fun i => (t i).1)) i)
      (t i).2)
  left_inv t := by
    funext i
    simp only [shiftArr_shiftArr, ringRead_shiftArr, add_sub_cancel_right, add_neg_cancel,
      shiftArr_zero, onParty]
    split_ifs <;> simp
  right_inv t := by
    funext i
    have h : ringRead (w := w) (fun i => shiftArr w (-d i) (t i).1) =
        ringRead (fun i => (t i).1) - d := by
      rw [ringRead_shiftArr, sub_eq_add_neg]; rfl
    simp only [shiftArr_shiftArr, h, sub_add_cancel, neg_add_cancel, shiftArr_zero, onParty]
    split_ifs <;> simp

/-- Move the first two arrays by `da` and `db` and let party `k`'s third array absorb what
that changes in `F` of the first two. -/
def shear3 (da db : Fin N → ℕ → ZMod (2 ^ w))
    (F : (Fin N → ℕ → ZMod (2 ^ w)) → (Fin N → ℕ → ZMod (2 ^ w)) → ℕ → ZMod (2 ^ w)) :
    Shares3 N ≃ Shares3 N where
  toFun t i := (shiftArr w (da i) (t i).1, shiftArr w (db i) (t i).2.1,
    shiftArr w (onParty k (F (ringRead (fun i => (t i).1) + da)
        (ringRead (fun i => (t i).2.1) + db) -
      F (ringRead fun i => (t i).1) (ringRead fun i => (t i).2.1)) i) (t i).2.2)
  invFun t i := (shiftArr w (-da i) (t i).1, shiftArr w (-db i) (t i).2.1,
    shiftArr w (onParty k (F (ringRead (fun i => (t i).1) - da)
        (ringRead (fun i => (t i).2.1) - db) -
      F (ringRead fun i => (t i).1) (ringRead fun i => (t i).2.1)) i) (t i).2.2)
  left_inv t := by
    funext i
    simp only [shiftArr_shiftArr, ringRead_shiftArr, add_sub_cancel_right, add_neg_cancel,
      shiftArr_zero, onParty]
    split_ifs <;> simp
  right_inv t := by
    funext i
    have ha : ringRead (w := w) (fun i => shiftArr w (-da i) (t i).1) =
        ringRead (fun i => (t i).1) - da := by rw [ringRead_shiftArr, sub_eq_add_neg]; rfl
    have hb : ringRead (w := w) (fun i => shiftArr w (-db i) (t i).2.1) =
        ringRead (fun i => (t i).2.1) - db := by rw [ringRead_shiftArr, sub_eq_add_neg]; rfl
    simp only [shiftArr_shiftArr, ha, hb, sub_add_cancel, neg_add_cancel, shiftArr_zero, onParty]
    split_ifs <;> simp

/-- Move the first arrays by `d` and let party `k`'s second and third arrays absorb what
that changes in `F` and in `G` of the first arrays. -/
def shearPr (d : Fin N → ℕ → ZMod (2 ^ w))
    (F G : (Fin N → ℕ → ZMod (2 ^ w)) → ℕ → ZMod (2 ^ w)) : Shares3 N ≃ Shares3 N where
  toFun t i := (shiftArr w (d i) (t i).1,
    shiftArr w (onParty k (F (ringRead (fun i => (t i).1) + d) - F (ringRead fun i => (t i).1)) i)
      (t i).2.1,
    shiftArr w (onParty k (G (ringRead (fun i => (t i).1) + d) - G (ringRead fun i => (t i).1)) i)
      (t i).2.2)
  invFun t i := (shiftArr w (-d i) (t i).1,
    shiftArr w (onParty k (F (ringRead (fun i => (t i).1) - d) - F (ringRead fun i => (t i).1)) i)
      (t i).2.1,
    shiftArr w (onParty k (G (ringRead (fun i => (t i).1) - d) - G (ringRead fun i => (t i).1)) i)
      (t i).2.2)
  left_inv t := by
    funext i
    simp only [shiftArr_shiftArr, ringRead_shiftArr, add_sub_cancel_right, add_neg_cancel,
      shiftArr_zero, onParty]
    split_ifs <;> simp
  right_inv t := by
    funext i
    have h : ringRead (w := w) (fun i => shiftArr w (-d i) (t i).1) =
        ringRead (fun i => (t i).1) - d := by rw [ringRead_shiftArr, sub_eq_add_neg]; rfl
    simp only [shiftArr_shiftArr, h, sub_add_cancel, neg_add_cancel, shiftArr_zero, onParty]
    split_ifs <;> simp

variable {k}

/-! ### What a move does -/

section Effect

variable {j : Fin N} (hk : k ≠ j)
include hk

theorem shear2_fixes {d : Fin N → ℕ → ZMod (2 ^ w)} (hd : d j = 0)
    (F : (Fin N → ℕ → ZMod (2 ^ w)) → ℕ → ZMod (2 ^ w)) (t : Shares2 N) :
    shear2 w k d F t j = t j := by
  simp [shear2, hd, onParty, hk.symm]

theorem shear3_fixes {da db : Fin N → ℕ → ZMod (2 ^ w)} (hda : da j = 0) (hdb : db j = 0)
    (F : (Fin N → ℕ → ZMod (2 ^ w)) → (Fin N → ℕ → ZMod (2 ^ w)) → ℕ → ZMod (2 ^ w))
    (t : Shares3 N) : shear3 w k da db F t j = t j := by
  simp [shear3, hda, hdb, onParty, hk.symm]

theorem shearPr_fixes {d : Fin N → ℕ → ZMod (2 ^ w)} (hd : d j = 0)
    (F G : (Fin N → ℕ → ZMod (2 ^ w)) → ℕ → ZMod (2 ^ w)) (t : Shares3 N) :
    shearPr w k d F G t j = t j := by
  simp [shearPr, hd, onParty, hk.symm]

end Effect

theorem shear2_rel (d : Fin N → ℕ → ZMod (2 ^ w))
    (F : (Fin N → ℕ → ZMod (2 ^ w)) → ℕ → ZMod (2 ^ w)) (P : ℕ → Prop) (t : Shares2 N) :
    (∀ idx, P idx → ∑ i, ((shear2 w k d F t i).2 idx : ZMod (2 ^ w)) =
        F (ringRead fun i => (shear2 w k d F t i).1) idx) ↔
      ∀ idx, P idx → ∑ i, ((t i).2 idx : ZMod (2 ^ w)) = F (ringRead fun i => (t i).1) idx := by
  simp only [shear2, Equiv.coe_fn_mk, ringRead_shiftArr]
  exact absorb_iff fun idx => sum_onParty k _ _ idx

theorem shear3_rel (da db : Fin N → ℕ → ZMod (2 ^ w))
    (F : (Fin N → ℕ → ZMod (2 ^ w)) → (Fin N → ℕ → ZMod (2 ^ w)) → ℕ → ZMod (2 ^ w))
    (P : ℕ → Prop) (t : Shares3 N) :
    (∀ idx, P idx → ∑ i, ((shear3 w k da db F t i).2.2 idx : ZMod (2 ^ w)) =
        F (ringRead fun i => (shear3 w k da db F t i).1)
          (ringRead fun i => (shear3 w k da db F t i).2.1) idx) ↔
      ∀ idx, P idx → ∑ i, ((t i).2.2 idx : ZMod (2 ^ w)) =
        F (ringRead fun i => (t i).1) (ringRead fun i => (t i).2.1) idx := by
  simp only [shear3, Equiv.coe_fn_mk, ringRead_shiftArr]
  exact absorb_iff fun idx => sum_onParty k _ _ idx

theorem shearPr_rel (d : Fin N → ℕ → ZMod (2 ^ w))
    (F G : (Fin N → ℕ → ZMod (2 ^ w)) → ℕ → ZMod (2 ^ w)) (P : ℕ → Prop) (t : Shares3 N) :
    (∀ idx, P idx → ∑ i, ((shearPr w k d F G t i).2.1 idx : ZMod (2 ^ w)) =
          F (ringRead fun i => (shearPr w k d F G t i).1) idx ∧
        ∑ i, ((shearPr w k d F G t i).2.2 idx : ZMod (2 ^ w)) =
          G (ringRead fun i => (shearPr w k d F G t i).1) idx) ↔
      ∀ idx, P idx → ∑ i, ((t i).2.1 idx : ZMod (2 ^ w)) = F (ringRead fun i => (t i).1) idx ∧
        ∑ i, ((t i).2.2 idx : ZMod (2 ^ w)) = G (ringRead fun i => (t i).1) idx := by
  simp only [shearPr, Equiv.coe_fn_mk, ringRead_shiftArr, sum_onParty, Pi.sub_apply]
  refine forall_congr' fun idx => imp_congr_right fun _ => and_congr ?_ ?_ <;>
    constructor <;> intro e <;> linear_combination e

end Shear

/-! ## Moving one draw of the source -/

namespace World

variable (W : World N) (n : ℕ)

/-- The source with the shares of elementwise triple number `n` moved by `σ`. -/
def moveMul (σ : Shares3 N ≃ Shares3 N) : World N :=
  { W with mul := fun m dx dy => if m = n then σ (W.mul m dx dy) else W.mul m dx dy }

/-- The source with the shares of dot triple number `n` moved by `σ`. -/
def moveDot (σ : Shares3 N ≃ Shares3 N) : World N :=
  { W with dot := fun m d dx dy => if m = n then σ (W.dot m d dx dy) else W.dot m d dx dy }

/-- The source with the shares of square pair number `n` moved by `σ`. -/
def moveSquare (σ : Shares2 N ≃ Shares2 N) : World N :=
  { W with square := fun m dx => if m = n then σ (W.square m dx) else W.square m dx }

/-- The source with the shares of truncation pair number `n` moved by `σ`. -/
def moveTrunc (σ : Shares2 N ≃ Shares2 N) : World N :=
  { W with trunc := fun m => if m = n then σ (W.trunc m) else W.trunc m }

/-- The source with the shares of `TruncPr` triple number `n` moved by `σ`. -/
def moveTruncPr (σ : Shares3 N ≃ Shares3 N) : World N :=
  { W with truncPr := fun m => if m = n then σ (W.truncPr m) else W.truncPr m }

/-- The source with the shares of private-multiply pair number `n` moved by `σ`. -/
def moveMulPriv (σ : Shares2 N ≃ Shares2 N) : World N :=
  { W with mulPriv := fun m => if m = n then σ (W.mulPriv m) else W.mulPriv m }

@[simp] theorem moveMul_mul (σ : Shares3 N ≃ Shares3 N) dx dy :
    (W.moveMul n σ).mul n dx dy = σ (W.mul n dx dy) := if_pos rfl

@[simp] theorem moveDot_dot (σ : Shares3 N ≃ Shares3 N) d dx dy :
    (W.moveDot n σ).dot n d dx dy = σ (W.dot n d dx dy) := if_pos rfl

@[simp] theorem moveSquare_square (σ : Shares2 N ≃ Shares2 N) dx :
    (W.moveSquare n σ).square n dx = σ (W.square n dx) := if_pos rfl

@[simp] theorem moveTrunc_trunc (σ : Shares2 N ≃ Shares2 N) :
    (W.moveTrunc n σ).trunc n = σ (W.trunc n) := if_pos rfl

@[simp] theorem moveTruncPr_truncPr (σ : Shares3 N ≃ Shares3 N) :
    (W.moveTruncPr n σ).truncPr n = σ (W.truncPr n) := if_pos rfl

@[simp] theorem moveMulPriv_mulPriv (σ : Shares2 N ≃ Shares2 N) :
    (W.moveMulPriv n σ).mulPriv n = σ (W.mulPriv n) := if_pos rfl

end World

/-! ## The source's relations, one draw at a time -/

section Relations

variable (f : FieldType)

/-- `Beaver::Mul`'s relation: `Σ c = Σ a * Σ b` on the first `numel` elements. -/
def MulTripleAt (numel : ℕ) (t : Shares3 N) : Prop :=
  ∀ idx < numel, ∑ i, ((t i).2.2 idx : ZMod (2 ^ f.width)) =
    (∑ i, ((t i).1 idx : ZMod (2 ^ f.width))) * ∑ i, ((t i).2.1 idx : ZMod (2 ^ f.width))

/-- `Beaver::Dot`'s relation for an `m × n` by `n × p` product: element `idx` of `Σ c` is
row `idx / p` of `Σ a` times column `idx % p` of `Σ b`. -/
def DotTripleAt (m n p : ℕ) (t : Shares3 N) : Prop :=
  ∀ idx < m * p, ∑ i, ((t i).2.2 idx : ZMod (2 ^ f.width)) =
    ∑ l ∈ Finset.range n, (∑ i, ((t i).1 (idx / p * n + l) : ZMod (2 ^ f.width))) *
      ∑ i, ((t i).2.1 (l * p + idx % p) : ZMod (2 ^ f.width))

/-- `Beaver::Square`'s relation: `Σ b = (Σ a) ^ 2`. -/
def SquarePairAt (numel : ℕ) (t : Shares2 N) : Prop :=
  ∀ idx < numel, ∑ i, ((t i).2 idx : ZMod (2 ^ f.width)) =
    (∑ i, ((t i).1 idx : ZMod (2 ^ f.width))) ^ 2

/-- `Beaver::Trunc`'s relation: `Σ rb` is `Σ r` shifted right arithmetically by `bits`. -/
def TruncPairAt (bits numel : ℕ) (t : Shares2 N) : Prop :=
  ∀ idx < numel, ∑ i, ((t i).2 idx : ZMod (2 ^ f.width)) =
    ((signedVal (∑ i, ((t i).1 idx : ZMod (2 ^ f.width))) / 2 ^ bits : ℤ) : ZMod (2 ^ f.width))

/-- `Beaver::TruncPr`'s relation: `Σ rc` is the low `k - 1` bits of `R = Σ r` shifted right
by `bits`, and `Σ rb` the top bit of `R`. -/
def TruncPrTripleAt (bits numel : ℕ) (t : Shares3 N) : Prop :=
  ∀ idx < numel,
    ∑ i, ((t i).2.1 idx : ZMod (2 ^ f.width)) =
        (((∑ i, ((t i).1 idx : ZMod (2 ^ f.width))).val % 2 ^ (f.width - 1) / 2 ^ bits : ℕ) :
          ZMod (2 ^ f.width)) ∧
      ∑ i, ((t i).2.2 idx : ZMod (2 ^ f.width)) =
        (((∑ i, ((t i).1 idx : ZMod (2 ^ f.width))).val / 2 ^ (f.width - 1) : ℕ) :
          ZMod (2 ^ f.width))

/-- `Beaver::MulPriv`'s relation: `c0 + c1 = a0 * a1`. -/
def MulPrivPairAt (numel : ℕ) (t : Shares2 2) : Prop :=
  ∀ idx < numel, ∑ i, ((t i).2 idx : ZMod (2 ^ f.width)) =
    ((t 0).1 idx : ZMod (2 ^ f.width)) * (t 1).1 idx

end Relations

/-! ## The moves that keep each relation -/

section Moves

variable {j k : Fin N} (hk : k ≠ j) (f : FieldType)

/-- Moving `a` and `b` of an elementwise triple; party `k` absorbs the change of the
product into `c`. -/
def mulMove (da db : Fin N → ℕ → ZMod (2 ^ f.width)) (hda : da j = 0) (hdb : db j = 0)
    (numel : ℕ) : ShareBijection ((ℕ → ℕ) × (ℕ → ℕ) × (ℕ → ℕ)) j (MulTripleAt f numel) where
  toEquiv := shear3 f.width k da db fun A B idx => (∑ i, A i idx) * ∑ i, B i idx
  fixes := shear3_fixes f.width hk hda hdb _
  preserves := shear3_rel f.width da db _ (· < numel)

/-- Moving `a` and `b` of a dot triple; party `k` absorbs the change of the matrix product
into `c`. -/
def dotMove (da db : Fin N → ℕ → ZMod (2 ^ f.width)) (hda : da j = 0) (hdb : db j = 0)
    (m n p : ℕ) : ShareBijection ((ℕ → ℕ) × (ℕ → ℕ) × (ℕ → ℕ)) j (DotTripleAt f m n p) where
  toEquiv := shear3 f.width k da db fun A B idx =>
    ∑ l ∈ Finset.range n, (∑ i, A i (idx / p * n + l)) * ∑ i, B i (l * p + idx % p)
  fixes := shear3_fixes f.width hk hda hdb _
  preserves := shear3_rel f.width da db _ (· < m * p)

/-- Moving `a` of a square pair; party `k` absorbs the change of the square into `b`. -/
def squareMove (d : Fin N → ℕ → ZMod (2 ^ f.width)) (hd : d j = 0) (numel : ℕ) :
    ShareBijection ((ℕ → ℕ) × (ℕ → ℕ)) j (SquarePairAt f numel) where
  toEquiv := shear2 f.width k d fun A idx => (∑ i, A i idx) ^ 2
  fixes := shear2_fixes f.width hk hd _
  preserves := shear2_rel f.width d _ (· < numel)

/-- Moving `r` of a truncation pair; party `k` absorbs the change of the shifted mask into
`rb`. -/
def truncMove (d : Fin N → ℕ → ZMod (2 ^ f.width)) (hd : d j = 0) (bits numel : ℕ) :
    ShareBijection ((ℕ → ℕ) × (ℕ → ℕ)) j (TruncPairAt f bits numel) where
  toEquiv := shear2 f.width k d fun A idx =>
    ((signedVal (∑ i, A i idx) / 2 ^ bits : ℤ) : ZMod (2 ^ f.width))
  fixes := shear2_fixes f.width hk hd _
  preserves := shear2_rel f.width d _ (· < numel)

/-- Moving `r` of a `TruncPr` triple; party `k` absorbs the changes of the low bits and of
the top bit into `rc` and `rb`. -/
def truncPrMove (d : Fin N → ℕ → ZMod (2 ^ f.width)) (hd : d j = 0) (bits numel : ℕ) :
    ShareBijection ((ℕ → ℕ) × (ℕ → ℕ) × (ℕ → ℕ)) j (TruncPrTripleAt f bits numel) where
  toEquiv := shearPr f.width k d
    (fun A idx => (((∑ i, A i idx).val % 2 ^ (f.width - 1) / 2 ^ bits : ℕ) : ZMod (2 ^ f.width)))
    fun A idx => (((∑ i, A i idx).val / 2 ^ (f.width - 1) : ℕ) : ZMod (2 ^ f.width))
  fixes := shearPr_fixes f.width hk hd _ _
  preserves := shearPr_rel f.width d _ _ (· < numel)

end Moves

/-- Moving the other party's `a` of a private-multiply pair; it absorbs the change of the
product into its `c`. -/
def mulPrivMove {j k : Fin 2} (hk : k ≠ j) (f : FieldType) (d : Fin 2 → ℕ → ZMod (2 ^ f.width))
    (hd : d j = 0) (numel : ℕ) : ShareBijection ((ℕ → ℕ) × (ℕ → ℕ)) j (MulPrivPairAt f numel) where
  toEquiv := shear2 f.width k d fun A idx => A 0 idx * A 1 idx
  fixes := shear2_fixes f.width hk hd _
  preserves := shear2_rel f.width d _ (· < numel)

end Semi2k
