import Semi2k.Core.NdArray
import Mathlib.Algebra.BigOperators.Fin
import Mathlib.Data.Matrix.Basic

/-!
# The ring-array primitives

The elementwise and matrix operations of `ring_ops` that the kernels call (`ring_add`,
`ring_sub`, `ring_mul`, `ring_mmul`, the shifts and the bit mask).  They are external to
the kernels: each is modelled from the spec, as an operation modulo `2 ^ k` that requires
its two operands to share field and shape and fails otherwise.  Every operation is split in
a total computation on the first operand's ring (`NdArrayRef.add`, ...) and the checked
primitive the source calls (`ringAdd`, ...).

The cast lemmas read each computation in `ZMod (2 ^ k)`, where the protocol algebra is done.
-/

namespace Semi2k

namespace NdArrayRef

/-! ## Total elementwise computations -/

/-- Elementwise sum, in the ring of `x`. -/
def add (x y : NdArrayRef) : NdArrayRef :=
  ofFun x.eltype x.shape fun i => x.data i + y.data i

/-- Elementwise difference, in the ring of `x`. -/
def sub (x y : NdArrayRef) : NdArrayRef :=
  ofFun x.eltype x.shape fun i =>
    x.data i + (2 ^ x.eltype.field.width - y.data i % 2 ^ x.eltype.field.width)

/-- Elementwise product, in the ring of `x`. -/
def mul (x y : NdArrayRef) : NdArrayRef :=
  ofFun x.eltype x.shape fun i => x.data i * y.data i

/-- Elementwise negation. -/
def neg (x : NdArrayRef) : NdArrayRef :=
  ofFun x.eltype x.shape fun i => 2 ^ x.eltype.field.width - x.data i

/-- Product with a scalar, `ring_mul(x, c)`. -/
def mulScalar (x : NdArrayRef) (c : ℕ) : NdArrayRef :=
  ofFun x.eltype x.shape fun i => x.data i * c

/-- The shift amount of element `i` under a `Sizes` argument: one amount for every element,
or one per element. -/
def shiftAt (bits : List ℕ) (i : ℕ) : ℕ :=
  if bits.length = 1 then bits.headD 0 else bits.getD i 0

/-- Left shift, `ring_lshift(x, bits)`. -/
def lshift (x : NdArrayRef) (bits : List ℕ) : NdArrayRef :=
  ofFun x.eltype x.shape fun i => x.data i * 2 ^ shiftAt bits i

/-- Logical right shift, `ring_rshift(x, bits)`. -/
def rshift (x : NdArrayRef) (bits : List ℕ) : NdArrayRef :=
  ofFun x.eltype x.shape fun i => x.data i / 2 ^ shiftAt bits i

/-- Arithmetic right shift, `ring_arshift(x, bits)`: the signed reading divided by
`2 ^ bits`, rounding down. -/
def arshift (x : NdArrayRef) (bits : List ℕ) : NdArrayRef :=
  ofFun x.eltype x.shape fun i =>
    ofSigned x.eltype.field.width (toSigned x.eltype.field.width (x.data i) / 2 ^ shiftAt bits i)

/-- `ring_bitmask(x, low, high)`: keep the bits `low ≤ b < high`. -/
def bitmask (x : NdArrayRef) (low high : ℕ) : NdArrayRef :=
  ofFun x.eltype x.shape fun i => x.data i &&& ((2 ^ (high - low) - 1) * 2 ^ low)

/-- Matrix product of a row-major `m × n` and `n × p` array, in the ring of `x`. -/
def mmul (x y : NdArrayRef) : NdArrayRef :=
  let n := x.shape.getD 1 0
  let p := y.shape.getD 1 0
  ofFun x.eltype [x.shape.getD 0 0, p] fun idx =>
    ∑ l ∈ Finset.range n, x.data (idx / p * n + l) * y.data (l * p + idx % p)

@[simp] theorem add_eltype (x y : NdArrayRef) : (x.add y).eltype = x.eltype := rfl
@[simp] theorem add_shape (x y : NdArrayRef) : (x.add y).shape = x.shape := rfl
@[simp] theorem sub_eltype (x y : NdArrayRef) : (x.sub y).eltype = x.eltype := rfl
@[simp] theorem sub_shape (x y : NdArrayRef) : (x.sub y).shape = x.shape := rfl
@[simp] theorem mul_eltype (x y : NdArrayRef) : (x.mul y).eltype = x.eltype := rfl
@[simp] theorem mul_shape (x y : NdArrayRef) : (x.mul y).shape = x.shape := rfl
@[simp] theorem neg_eltype (x : NdArrayRef) : x.neg.eltype = x.eltype := rfl
@[simp] theorem neg_shape (x : NdArrayRef) : x.neg.shape = x.shape := rfl
@[simp] theorem mulScalar_eltype (x : NdArrayRef) (c : ℕ) : (x.mulScalar c).eltype = x.eltype :=
  rfl
@[simp] theorem mulScalar_shape (x : NdArrayRef) (c : ℕ) : (x.mulScalar c).shape = x.shape := rfl
@[simp] theorem lshift_eltype (x : NdArrayRef) (b : List ℕ) : (x.lshift b).eltype = x.eltype :=
  rfl
@[simp] theorem lshift_shape (x : NdArrayRef) (b : List ℕ) : (x.lshift b).shape = x.shape := rfl
@[simp] theorem rshift_eltype (x : NdArrayRef) (b : List ℕ) : (x.rshift b).eltype = x.eltype :=
  rfl
@[simp] theorem rshift_shape (x : NdArrayRef) (b : List ℕ) : (x.rshift b).shape = x.shape := rfl
@[simp] theorem arshift_eltype (x : NdArrayRef) (b : List ℕ) :
    (x.arshift b).eltype = x.eltype := rfl
@[simp] theorem arshift_shape (x : NdArrayRef) (b : List ℕ) : (x.arshift b).shape = x.shape :=
  rfl
@[simp] theorem bitmask_eltype (x : NdArrayRef) (l h : ℕ) : (x.bitmask l h).eltype = x.eltype :=
  rfl
@[simp] theorem bitmask_shape (x : NdArrayRef) (l h : ℕ) : (x.bitmask l h).shape = x.shape := rfl
@[simp] theorem mmul_eltype (x y : NdArrayRef) : (x.mmul y).eltype = x.eltype := rfl
@[simp] theorem mmul_shape (x y : NdArrayRef) :
    (x.mmul y).shape = [x.shape.getD 0 0, y.shape.getD 1 0] := rfl

/-! ## Reading the computations in `ZMod (2 ^ k)` -/

section Cast

variable {f : FieldType} (x y : NdArrayRef) (i : ℕ)

theorem add_data_cast (hx : x.eltype.field = f) :
    ((x.add y).data i : ZMod (2 ^ f.width)) = x.data i + y.data i := by
  subst hx; simp [add]

theorem sub_data_cast (hx : x.eltype.field = f) :
    ((x.sub y).data i : ZMod (2 ^ f.width)) = x.data i - y.data i := by
  subst hx
  have hle : y.data i % 2 ^ x.eltype.field.width ≤ 2 ^ x.eltype.field.width :=
    (Nat.mod_lt _ (Nat.two_pow_pos _)).le
  simp [sub, Nat.cast_sub hle, sub_eq_add_neg]

theorem mul_data_cast (hx : x.eltype.field = f) :
    ((x.mul y).data i : ZMod (2 ^ f.width)) = x.data i * y.data i := by
  subst hx; simp [mul]

theorem neg_data_cast (hx : x.eltype.field = f) :
    ((x.neg).data i : ZMod (2 ^ f.width)) = -x.data i := by
  subst hx; simp [neg, Nat.cast_sub (x.data_lt i).le]

theorem mulScalar_data_cast (c : ℕ) (hx : x.eltype.field = f) :
    ((x.mulScalar c).data i : ZMod (2 ^ f.width)) = x.data i * c := by
  subst hx; simp [mulScalar]

theorem lshift_data_cast (bits : List ℕ) (hx : x.eltype.field = f) :
    ((x.lshift bits).data i : ZMod (2 ^ f.width)) = x.data i * 2 ^ shiftAt bits i := by
  subst hx; simp [lshift]

/-- Element `a * p + c` of an `m × n` by `n × p` product is row `a` of `x` against column `c`
of `y`. -/
theorem mmul_data_cast {m n p : ℕ} (hx : x.eltype.field = f) (hxs : x.shape = [m, n])
    (hys : y.shape = [n, p]) {a c : ℕ} (hc : c < p) :
    ((x.mmul y).data (a * p + c) : ZMod (2 ^ f.width)) =
      ∑ l ∈ Finset.range n, (x.data (a * n + l) : ZMod (2 ^ f.width)) * y.data (l * p + c) := by
  subst hx
  have hdiv : (a * p + c) / p = a := by
    rw [Nat.add_comm, Nat.add_mul_div_right _ _ (by omega), Nat.div_eq_of_lt hc, zero_add]
  have hmod : (a * p + c) % p = c := by
    rw [Nat.add_comm, Nat.add_mul_mod_self_right, Nat.mod_eq_of_lt hc]
  simp [mmul, hxs, hys, hdiv, hmod]

end Cast

end NdArrayRef

/-- `ring_ones(field, shape)`. -/
def ringOnes (field : FieldType) (s : Shape) : NdArrayRef :=
  NdArrayRef.ofFun (RingTy field) s fun _ => 1

/-! ## The checked primitives -/

/-- The operand check of every binary primitive: one field and one shape. -/
def checkBinary (x y : NdArrayRef) : Except String Unit :=
  if x.eltype.field ≠ y.eltype.field then .error "type mismatch"
  else if x.shape ≠ y.shape then .error "shape mismatch"
  else .ok ()

/-- `ring_add`. -/
def ringAdd (x y : NdArrayRef) : Except String NdArrayRef :=
  checkBinary x y *> pure (x.add y)

/-- `ring_sub`. -/
def ringSub (x y : NdArrayRef) : Except String NdArrayRef :=
  checkBinary x y *> pure (x.sub y)

/-- `ring_mul`. -/
def ringMul (x y : NdArrayRef) : Except String NdArrayRef :=
  checkBinary x y *> pure (x.mul y)

/-- `ring_mmul`: a matrix product needs two 2-d operands of one field with matching inner
dimension. -/
def ringMmul (x y : NdArrayRef) : Except String NdArrayRef :=
  if x.eltype.field ≠ y.eltype.field then .error "type mismatch"
  else if x.shape.length ≠ 2 ∨ y.shape.length ≠ 2 ∨ x.shape.getD 1 0 ≠ y.shape.getD 0 0 then
    .error "mmul shape mismatch"
  else .ok (x.mmul y)

theorem checkBinary_ok {x y : NdArrayRef} (hf : x.eltype.field = y.eltype.field)
    (hs : x.shape = y.shape) :
    checkBinary x y = .ok () := by
  simp [checkBinary, hf, hs]

@[simp] theorem ringAdd_ok {x y : NdArrayRef} (hf : x.eltype.field = y.eltype.field)
    (hs : x.shape = y.shape) :
    ringAdd x y = .ok (x.add y) := by
  simp [ringAdd, checkBinary_ok hf hs]; rfl

@[simp] theorem ringSub_ok {x y : NdArrayRef} (hf : x.eltype.field = y.eltype.field)
    (hs : x.shape = y.shape) :
    ringSub x y = .ok (x.sub y) := by
  simp [ringSub, checkBinary_ok hf hs]; rfl

@[simp] theorem ringMul_ok {x y : NdArrayRef} (hf : x.eltype.field = y.eltype.field)
    (hs : x.shape = y.shape) :
    ringMul x y = .ok (x.mul y) := by
  simp [ringMul, checkBinary_ok hf hs]; rfl

theorem ringMmul_ok {x y : NdArrayRef} {m n p : ℕ} (hf : x.eltype.field = y.eltype.field)
    (hx : x.shape = [m, n]) (hy : y.shape = [n, p]) :
    ringMmul x y = .ok (x.mmul y) := by
  simp [ringMmul, hf, hx, hy]

end Semi2k
