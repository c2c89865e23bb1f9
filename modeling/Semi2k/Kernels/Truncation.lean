import Semi2k.Kernels.Conversion

/-!
# Truncation and the two-party private product

`MulVVS`, the three truncations `TruncA`, `TruncAPr` and `TruncAPr2`, and the pieces of the
last one, `getTruncField` and `computeMW`, one party's code each.  The per-element
arithmetic of `TruncAPr` and `TruncAPr2` is done on `ring2k_t` values, unsigned integers
modulo `2 ^ k`; it is written out as functions on naturals below `2 ^ k`, next to the kernel
that maps them over the array.
-/

namespace Semi2k

open NdArrayRef

/-- `MulVVS::proc`: party 0 holds `x`, party 1 holds `y`; each masks its input with its
share `a` of a private-multiply pair and sends it to the other. -/
def MulVVS.proc (ctx : KernelEvalContext) (x y : NdArrayRef) : Prog NdArrayRef := do
  let x_rank ← privOwner x
  let y_rank ← privOwner y
  enforce (x_rank ≠ y_rank) "x_rank != y_rank"
  let field := x.eltype.field
  let numel := x.numel
  let rank := ctx.rank
  let in_ ← (if rank = x_rank then pure x else if rank = y_rank then pure y
    else .throw s!"Invalid rank: {rank}")
  let (a_buf, c_buf) ← beaverMulPriv field numel
  enforce (a_buf.size = numel * field.sizeOf) "a_buf.size() == numel * SizeOf(field)"
  enforce (c_buf.size = numel * field.sizeOf) "c_buf.size() == numel * SizeOf(field)"
  let a := unflattenBuffer a_buf (RingTy field) x.shape
  let c := unflattenBuffer c_buf (RingTy field) x.shape
  let a_x ← ringAdd a in_
  sendAsync ctx.nextRank a_x
  let tmp ← (← recv ctx.prevRank (AShrTy field)).reshape in_.shape
  if rank = 0 then
    let tmp ← ringMul tmp in_
    ringAdd tmp c
  else if rank = 1 then
    let tmp ← ringMul tmp a.neg
    ringAdd tmp c
  else .throw s!"Invalid rank: {rank}"

/-- `TruncA::proc`: with two parties each share is shifted locally (SecureML); otherwise
`x - r` is opened against a truncation pair `(r, rb)` and rank 0 adds its shift to `rb`. -/
def TruncA.proc (ctx : KernelEvalContext) (x : NdArrayRef) (bits : ℕ) : Prog NdArrayRef := do
  if ctx.worldSize = 2 then
    (x.arshift [bits]).as x.eltype
  else
    let field := x.eltype.field
    let (r_buf, rb_buf) ← beaverTrunc field x.numel bits
    let r := unflattenBuffer r_buf x.eltype x.shape
    let rb := unflattenBuffer rb_buf x.eltype x.shape
    let x_r ← allReduce (← ringSub x r)
    let res ← if ctx.rank = 0 then ringAdd rb (x_r.arshift [bits]) else pure rb
    res.as x.eltype

/-- The element of `TruncAPr`'s output on `rank`, from the opened `c = x' + r` and the shares
`rc`, `rb` of the correlation, all `k`-bit: the carry `b = rb ^ c{k-1}` is rebuilt
arithmetically, and rank 0 adds `c / 2^m mod 2^(k-m-1)` and takes the re-centring back.
For `bits > k - 2` the source's shift amounts `k - 1 - bits` and `k - 2 - bits` wrap around as
`size_t` and the shifts are undefined; here they stop at `0`, so this follows the source only
for `bits ≤ k - 2`. -/
def truncPrShare (k bits rank c rc rb : ℕ) : ℕ :=
  let ck_1 := c / 2 ^ (k - 1)
  if rank = 0 then
    let b : ℤ := rb + ck_1 - 2 * ck_1 * rb
    let c_hat := c * 2 % 2 ^ k / 2 ^ (1 + bits)
    ofSigned k (c_hat - rc + b * 2 ^ (k - 1 - bits) - 2 ^ (k - 2 - bits))
  else
    let b : ℤ := rb + 0 - 2 * ck_1 * rb
    ofSigned k (0 - rc + b * 2 ^ (k - 1 - bits))

/-- `TruncAPr::proc`: open `x + r`, rank 0 first re-centring `x` by `2^(k-2)`, against a
`TruncPr` correlation `(r, rc, rb)`, and rebuild the truncation locally. -/
def TruncAPr.proc (ctx : KernelEvalContext) (in_ : NdArrayRef) (bits : ℕ) :
    Prog NdArrayRef := do
  let numel := in_.numel
  let field := in_.eltype.field
  let k := field.sizeOf * 8
  let (r, rc, rb) ← beaverTruncPr field numel bits
  enforce (r.size = numel * field.sizeOf) "r.size() == numel * SizeOf(field)"
  enforce (rc.size = numel * field.sizeOf) "rc.size() == numel * SizeOf(field)"
  enforce (rb.size = numel * field.sizeOf) "rb.size() == numel * SizeOf(field)"
  let x_plus_r := ofFun (RingTy field) [numel] fun idx =>
    in_.data idx + (if ctx.rank = 0 then 2 ^ (k - 2) else 0) + r.data idx
  let c ← allReduce x_plus_r
  pure (ofFun in_.eltype in_.shape fun idx =>
    truncPrShare k bits ctx.rank (c.data idx) (rc.data idx % 2 ^ k) (rb.data idx % 2 ^ k))

/-- Modelled from the spec: `TruncAPr2::kBitsLeftOut`, the bits kept free above the secret,
`L / 4 = 2 ^ (k - kBitsLeftOut)`. -/
def kBitsLeftOut : ℕ := 2

/-- `getTruncField(bits)`: the narrowest ring of at least `bits` bits. -/
def getTruncField (bits : ℕ) : Prog FieldType :=
  if bits ≤ 32 then .pure .FM32
  else if bits ≤ 64 then .pure .FM64
  else if bits ≤ 128 then .pure .FM128
  else .throw s!"Unsupported truncation bits: {bits}"

/-- `wrap_mulvvs`: the checks, then the private product; modelled from the spec, `mul_vv`
on two private values of different owners dispatches to `MulVVS`. -/
def wrap_mulvvs (ctx : KernelEvalContext) (x y : NdArrayRef) : Prog NdArrayRef := do
  enforce (x.shape = y.shape) "x.shape() == y.shape()"
  enforce x.eltype.owner?.isSome "x.eltype().isa<Priv2kTy>()"
  enforce y.eltype.owner?.isSome "y.eltype().isa<Priv2kTy>()"
  enforce (x.eltype.owner? ≠ y.eltype.owner?)
    "x.eltype().as<Priv2kTy>()->owner() != y.eltype().as<Priv2kTy>()->owner()"
  MulVVS.proc ctx x y

/-- The bit `computeMW` feeds into the private product on `rank` for a `k`-bit share:
rank 0 tests `x0 - L/4 ≥ L/2` and rank 1 tests `x1 ≥ L/2`, in `k`-bit arithmetic. -/
def mwBit (k rank v : ℕ) : ℕ :=
  let L_4 := 2 ^ (k - kBitsLeftOut) % 2 ^ k
  let L_2 := L_4 * 2 % 2 ^ k
  if rank = 0 then (if (v + 2 ^ k - L_4) % 2 ^ k ≥ L_2 then 1 else 0)
  else (if v ≥ L_2 then 1 else 0)

/-- `computeMW`: shares of `MW(x) = Wrap(x0, x1, L) + MSB(x)` in the ring of
`getTruncField(bits)`, through one private product of the two parties' bits. -/
def computeMW (ctx : KernelEvalContext) (in_ : NdArrayRef) (bits : ℕ) : Prog NdArrayRef := do
  let field := in_.eltype.field
  let k := field.sizeOf * 8
  let trunc_field ← getTruncField bits
  let L_4 := 2 ^ (k - kBitsLeftOut) % 2 ^ k
  let rank := ctx.rank
  let in_star ← (if rank = 0 ∨ rank = 1 then
      pure (ofFun (RingTy trunc_field) in_.shape fun idx => mwBit k rank (in_.data idx))
    else .throw s!"Invalid rank: {rank}")
  let (x, y) ← (if rank = 0 then do
      pure (← in_star.as (Priv2kTy trunc_field 0), constant (Priv2kTy trunc_field 1) in_star.shape)
    else do
      pure (constant (Priv2kTy trunc_field 0) in_star.shape, ← in_star.as (Priv2kTy trunc_field 1)))
  let mw ← wrap_mulvvs ctx x y
  let mw := if rank = 0 then
      ofFun mw.eltype mw.shape fun idx => mw.data idx + (1 - if in_.data idx < L_4 then 1 else 0)
    else mw
  mw.as (AShrTy trunc_field)

/-- The element of `TruncAPr2`'s output on `rank`:
`(x >> bits) - MW * 2^(k - bits) + rank` in `k`-bit arithmetic.  For `bits = 0` the source
shifts `MW` left by `k`, which is undefined; here it is multiplied by `2^k`, zero in the ring,
so this follows the source only for `bits ≥ 1`. -/
def truncPr2Share (k bits rank x mw : ℕ) : ℕ :=
  ofSigned k ((x / 2 ^ bits : ℕ) - (mw % 2 ^ k : ℕ) * 2 ^ (k - bits) + rank)

/-- `TruncAPr2::proc`: the local shift corrected by the shares of `MW(x)`. -/
def TruncAPr2.proc (ctx : KernelEvalContext) (in_ : NdArrayRef) (bits : ℕ) :
    Prog NdArrayRef := do
  let field := in_.eltype.field
  let k := field.sizeOf * 8
  let _trunc_field ← getTruncField bits
  let rank := ctx.rank
  enforce (rank = 0 ∨ rank = 1) s!"Invalid rank: {rank}"
  let mw ← computeMW ctx in_ bits
  pure (ofFun in_.eltype in_.shape fun idx => truncPr2Share k bits rank (in_.data idx) (mw.data idx))

end Semi2k
