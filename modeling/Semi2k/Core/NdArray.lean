import Mathlib.Data.ZMod.Basic

/-!
# Ring arrays and share types

The values the semi2k kernels move between parties: arrays of unsigned integers of one of
three ring widths, tagged with a share type.  As in the source, an `NdArrayRef` is
type-erased: its element type and its shape are data, and its elements are the values the
`ring2k_t` buffer holds, naturals below `2 ^ k`.  The identity of the backing buffer is kept
(`buf`), since `MulOpen` compares operands with `==` and the Beaver cache is keyed by it;
arrays computed inside a kernel sit in fresh buffers and carry no identity.
-/

namespace Semi2k

/-- The ring widths a kernel dispatches over (`FM32`, `FM64`, `FM128`). -/
inductive FieldType
  | FM32
  | FM64
  | FM128
  deriving DecidableEq, Repr

namespace FieldType

/-- Bytes of one element, `SizeOf(field)`. -/
def sizeOf : FieldType → ℕ
  | FM32 => 4
  | FM64 => 8
  | FM128 => 16

/-- Bits of one element, `k = SizeOf(field) * 8`. -/
def width (f : FieldType) : ℕ := f.sizeOf * 8

@[simp] theorem width_FM32 : FM32.width = 32 := rfl
@[simp] theorem width_FM64 : FM64.width = 64 := rfl
@[simp] theorem width_FM128 : FM128.width = 128 := rfl

theorem two_le_width (f : FieldType) : 2 ≤ f.width := by
  cases f <;> decide

end FieldType

/-- The kinds of element type the kernels meet: arithmetic and boolean shares, public
values, values private to one rank, and plain ring arrays (`RingTy`). -/
inductive EltKind
  | AShr
  | BShr (nbits : ℕ)
  | Pub2k
  | Priv2k (owner : ℕ)
  | Ring
  deriving DecidableEq, Repr

/-- An element type: the kind of share and the ring it lives in. -/
structure Ty where
  kind : EltKind
  field : FieldType
  deriving DecidableEq, Repr

/-- `makeType<AShrTy>(field)`. -/
def AShrTy (field : FieldType) : Ty := ⟨.AShr, field⟩

/-- `makeType<Pub2kTy>(field)`. -/
def Pub2kTy (field : FieldType) : Ty := ⟨.Pub2k, field⟩

/-- `makeType<Priv2kTy>(field, owner)`. -/
def Priv2kTy (field : FieldType) (owner : ℕ) : Ty := ⟨.Priv2k owner, field⟩

/-- `makeType<RingTy>(field)`. -/
def RingTy (field : FieldType) : Ty := ⟨.Ring, field⟩

@[simp] theorem AShrTy_field (f : FieldType) : (AShrTy f).field = f := rfl
@[simp] theorem Pub2kTy_field (f : FieldType) : (Pub2kTy f).field = f := rfl
@[simp] theorem Priv2kTy_field (f : FieldType) (r : ℕ) : (Priv2kTy f r).field = f := rfl
@[simp] theorem RingTy_field (f : FieldType) : (RingTy f).field = f := rfl

/-- The owner of a private type, `as<Priv2kTy>()->owner()`; the cast fails on other types. -/
def Ty.owner? (t : Ty) : Option ℕ :=
  match t.kind with
  | .Priv2k r => some r
  | _ => none

@[simp] theorem Priv2kTy_owner? (f : FieldType) (r : ℕ) : (Priv2kTy f r).owner? = some r := rfl

/-- Array shapes, row-major. -/
abbrev Shape := List ℕ

/-- A typed, type-erased ring array. -/
structure NdArrayRef where
  eltype : Ty
  shape : Shape
  /-- Identity of the backing buffer; `none` for a buffer allocated inside a kernel. -/
  buf : Option ℕ
  data : ℕ → ℕ
  data_lt : ∀ i, data i < 2 ^ eltype.field.width

namespace NdArrayRef

/-- `numel()`. -/
def numel (x : NdArrayRef) : ℕ := x.shape.prod

/-- `operator==`: two views of one buffer with one shape. -/
instance : BEq NdArrayRef :=
  ⟨fun x y => x.buf.isSome && x.buf == y.buf && x.shape == y.shape⟩

theorem beq_def (x y : NdArrayRef) :
    (x == y) = (x.buf.isSome && x.buf == y.buf && x.shape == y.shape) := rfl

/-- An array of a fresh buffer whose elements are `f i` reduced into the ring of `t`. -/
def ofFun (t : Ty) (s : Shape) (f : ℕ → ℕ) : NdArrayRef :=
  ⟨t, s, none, fun i => f i % 2 ^ t.field.width, fun _ => Nat.mod_lt _ (Nat.two_pow_pos _)⟩

@[simp] theorem ofFun_eltype (t : Ty) (s : Shape) (f : ℕ → ℕ) : (ofFun t s f).eltype = t := rfl
@[simp] theorem ofFun_shape (t : Ty) (s : Shape) (f : ℕ → ℕ) : (ofFun t s f).shape = s := rfl
@[simp] theorem ofFun_buf (t : Ty) (s : Shape) (f : ℕ → ℕ) : (ofFun t s f).buf = none := rfl
@[simp] theorem ofFun_data (t : Ty) (s : Shape) (f : ℕ → ℕ) (i : ℕ) :
    (ofFun t s f).data i = f i % 2 ^ t.field.width := rfl

/-- `makeConstantArrayRef(ty, shape)`: the zero placeholder. -/
def constant (t : Ty) (s : Shape) : NdArrayRef := ofFun t s fun _ => 0

@[simp] theorem constant_eltype (t : Ty) (s : Shape) : (constant t s).eltype = t := rfl
@[simp] theorem constant_shape (t : Ty) (s : Shape) : (constant t s).shape = s := rfl

/-- The empty array a disabled cache entry carries. -/
def empty : NdArrayRef := constant (RingTy .FM32) [0]

/-- The same buffer seen under another element type of the same ring. -/
def retype (x : NdArrayRef) (t : Ty) (h : t.field = x.eltype.field) : NdArrayRef :=
  ⟨t, x.shape, x.buf, x.data, fun i => h ▸ x.data_lt i⟩

@[simp] theorem retype_eltype (x : NdArrayRef) (t : Ty) (h : t.field = x.eltype.field) :
    (x.retype t h).eltype = t := rfl
@[simp] theorem retype_shape (x : NdArrayRef) (t : Ty) (h : t.field = x.eltype.field) :
    (x.retype t h).shape = x.shape := rfl
@[simp] theorem retype_buf (x : NdArrayRef) (t : Ty) (h : t.field = x.eltype.field) :
    (x.retype t h).buf = x.buf := rfl
@[simp] theorem retype_data (x : NdArrayRef) (t : Ty) (h : t.field = x.eltype.field) :
    (x.retype t h).data = x.data := rfl

/-- Viewing an array as its own type changes nothing. -/
@[simp] theorem retype_eq_self (x : NdArrayRef) (t : Ty) (h : t.field = x.eltype.field)
    (ht : x.eltype = t) : x.retype t h = x := by
  subst ht; rfl

/-- `as(ty)`: view the same buffer under another type of the same element size. -/
def as (x : NdArrayRef) (t : Ty) : Except String NdArrayRef :=
  if h : t.field = x.eltype.field then .ok (x.retype t h)
  else .error "viewed type not equal to origin type"

/-- `reshape(shape)`: the same elements under a shape with as many of them. -/
def reshape (x : NdArrayRef) (s : Shape) : Except String NdArrayRef :=
  if s.prod = x.numel then .ok { x with shape := s }
  else .error "reshape: numel mismatch"

theorem data_mod (x : NdArrayRef) (i : ℕ) : x.data i % 2 ^ x.eltype.field.width = x.data i :=
  Nat.mod_eq_of_lt (x.data_lt i)

@[simp] theorem as_eq {x : NdArrayRef} {t : Ty} (h : t.field = x.eltype.field) :
    x.as t = .ok (x.retype t h) := by
  simp [as, h]

end NdArrayRef

/-- A buffer as the Beaver source hands it out: its size in bytes and its elements. -/
structure Buffer where
  size : ℕ
  data : ℕ → ℕ

/-- `UnflattenBuffer(buf, t, s)`: read a buffer as an array of type `t` and shape `s`. -/
def unflattenBuffer (b : Buffer) (t : Ty) (s : Shape) : NdArrayRef :=
  NdArrayRef.ofFun t s b.data

/-! ## Signed readings -/

/-- A `k`-bit ring element read as a two's-complement integer. -/
def toSigned (k : ℕ) (v : ℕ) : ℤ :=
  if v < 2 ^ (k - 1) then v else (v : ℤ) - 2 ^ k

/-- An integer reduced into the `k`-bit ring. -/
def ofSigned (k : ℕ) (z : ℤ) : ℕ := (z % 2 ^ k).toNat

theorem ofSigned_lt (k : ℕ) (z : ℤ) : ofSigned k z < 2 ^ k := by
  have h : (0 : ℤ) < 2 ^ k := by positivity
  have h1 := Int.emod_nonneg z h.ne'
  have h2 := Int.emod_lt_of_pos z h
  have h3 : ((2 ^ k : ℕ) : ℤ) = 2 ^ k := by push_cast; rfl
  unfold ofSigned
  omega

end Semi2k
