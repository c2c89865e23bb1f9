import Semi2k.Core.Prog

/-!
# The Beaver multiplication kernels

`MulOpen` and the kernels built on it, `MulAA`, `MatMulAA` and `MulA1B`, with `SquareA` and
the cache control kernel `BeaverCacheKernel`, one party's code each.  `MulOpen` looks both
operands up in the replay cache, draws a Beaver triple (handing the source the descriptors
of the operands caching is on for), opens `x - a` and `y - b` unless the cache holds the
opening, and stores a fresh opening for an operand whose descriptor was still `Init`.

`MulOpen` is cut into the pieces the source runs one after the other: the shape check, the
triple, the opening and the stores.
-/

namespace Semi2k

open NdArrayRef

/-- The shape checks of `MulOpen`, and the shape of the product. -/
def mulShape (x y : NdArrayRef) (mmul : Bool) : Prog Shape :=
  if mmul then do
    enforce (x.shape.getD 1 0 = y.shape.getD 0 0) "x.shape()[1] == y.shape()[0]"
    pure [x.shape.getD 0 0, y.shape.getD 1 0]
  else do
    enforce (x.shape = y.shape) "x.shape() == y.shape()"
    pure x.shape

/-- The Beaver triple of `MulOpen`, read as `x`, `y` and the product, with the descriptors
as the source left them. -/
def mulTriple (field : FieldType) (x y : NdArrayRef) (z_shape : Shape) (mmul : Bool)
    (dx dy : Option ReplayDesc) :
    Prog ((NdArrayRef × NdArrayRef × NdArrayRef) × Option ReplayDesc × Option ReplayDesc) :=
  if mmul then do
    let ((a_buf, b_buf, c_buf), dx, dy) ←
      beaverDot field (x.shape.getD 0 0) (y.shape.getD 1 0) (x.shape.getD 1 0) dx dy
    enforce (a_buf.size = x.numel * field.sizeOf) "a_buf.size() == x.numel() * SizeOf(field)"
    enforce (b_buf.size = y.numel * field.sizeOf) "b_buf.size() == y.numel() * SizeOf(field)"
    enforce (c_buf.size = z_shape.prod * field.sizeOf)
      "c_buf.size() == z_shape.numel() * SizeOf(field)"
    pure ((unflattenBuffer a_buf x.eltype x.shape, unflattenBuffer b_buf y.eltype y.shape,
      unflattenBuffer c_buf x.eltype z_shape), dx, dy)
  else do
    let numel := x.numel
    let ((a_buf, b_buf, c_buf), dx, dy) ← beaverMul field numel dx dy
    enforce (a_buf.size = numel * field.sizeOf) "a_buf.size() == numel * SizeOf(field)"
    enforce (b_buf.size = numel * field.sizeOf) "b_buf.size() == numel * SizeOf(field)"
    enforce (c_buf.size = numel * field.sizeOf) "c_buf.size() == numel * SizeOf(field)"
    pure ((unflattenBuffer a_buf x.eltype x.shape, unflattenBuffer b_buf y.eltype y.shape,
      unflattenBuffer c_buf x.eltype x.shape), dx, dy)

/-- Two arrays laid end to end as one flat array in the ring of the first. -/
def concat (u v : NdArrayRef) : NdArrayRef :=
  ofFun u.eltype [u.numel + v.numel] fun idx =>
    if idx < u.numel then u.data idx else v.data (idx - u.numel)

/-- Modelled from the spec: `vmap({u, v}, open)` opens both arrays in one batched round, an
all-reduce of their concatenation split back into the two shapes. -/
def vmapOpen (u v : NdArrayRef) : Prog (NdArrayRef × NdArrayRef) := do
  let res ← allReduce (concat u v)
  pure (ofFun u.eltype u.shape res.data, ofFun v.eltype v.shape fun idx => res.data (u.numel + idx))

/-- Open `x - a` and `y - b`: a cache hit takes the stored opening; two misses are opened in
one batched round unless vectorization is disabled. -/
def openMasked (ctx : KernelEvalContext) (x y a b : NdArrayRef) (x_cache y_cache : Cache) :
    Prog (NdArrayRef × NdArrayRef) := do
  let x_hit_cache := x_cache.replay_desc.status ≠ .Init
  let y_hit_cache := y_cache.replay_desc.status ≠ .Init
  if ctx.config.experimental_disable_vectorization ∨ x_hit_cache ∨ y_hit_cache then
    let x_a ← if x_hit_cache then pure x_cache.open_cache else allReduce (← ringSub x a)
    let y_b ← if y_hit_cache then pure y_cache.open_cache else allReduce (← ringSub y b)
    pure (x_a, y_b)
  else
    vmapOpen (← ringSub x a) (← ringSub y b)

/-- Store a fresh opening for an operand caching is on for and whose descriptor was `Init`. -/
def storeOpen (x : NdArrayRef) (mmul : Bool) (x_cache : Cache) (x_a : NdArrayRef) :
    Prog Unit :=
  if x_cache.enabled ∧ x_cache.replay_desc.status = .Init then
    setCache x mmul x_cache.replay_desc x_a
  else pure ()

/-- Can't init on the same array twice: when `y` is `x` again and `x` is still to be opened,
caching is switched off for `y` in this call. -/
def aliasGuard (x y : NdArrayRef) (x_cache y_cache : Cache) : Cache :=
  if (x == y) = true ∧ x_cache.enabled ∧ x_cache.replay_desc.status = .Init then
    { y_cache with enabled := false }
  else y_cache

/-- The descriptor handed to the Beaver source: the cached one, or none when caching is off. -/
def Cache.desc? (c : Cache) : Option ReplayDesc :=
  if c.enabled then some c.replay_desc else none

/-- The cache entry after the Beaver source wrote into its descriptor. -/
def Cache.withDesc (c : Cache) (d : Option ReplayDesc) : Cache :=
  { c with replay_desc := d.getD c.replay_desc }

/-- `MulOpen`: the triple `a, b, c` and the openings `x - a` and `y - b`. -/
def MulOpen (ctx : KernelEvalContext) (x y : NdArrayRef) (mmul : Bool) :
    Prog (NdArrayRef × NdArrayRef × NdArrayRef × NdArrayRef × NdArrayRef) := do
  let field := x.eltype.field
  let x_cache ← getCache x mmul
  let y_cache ← getCache y mmul
  let y_cache := aliasGuard x y x_cache y_cache
  let z_shape ← mulShape x y mmul
  let ((a, b, c), dx, dy) ← mulTriple field x y z_shape mmul x_cache.desc? y_cache.desc?
  let x_cache := x_cache.withDesc dx
  let y_cache := y_cache.withDesc dy
  let (x_a, y_b) ← openMasked ctx x y a b x_cache y_cache
  storeOpen x mmul x_cache x_a
  storeOpen y mmul y_cache y_b
  pure (a, b, c, x_a, y_b)

/-- `MulAA::proc`: `z = c + (x - a) * b + (y - b) * a`, plus the product of the openings on
rank 0. -/
def MulAA.proc (ctx : KernelEvalContext) (x y : NdArrayRef) : Prog NdArrayRef := do
  let (a, b, c, x_a, y_b) ← MulOpen ctx x y false
  let b ← ringMul b x_a
  let a ← ringMul a y_b
  let b ← ringAdd b a
  let b ← ringAdd b c
  let b ← if ctx.rank = 0 then do ringAdd b (← ringMul x_a y_b) else pure b
  b.as x.eltype

/-- `SquareA::proc`: `z = b + 2 (x - a) a`, plus the square of the opening on rank 0. -/
def SquareA.proc (ctx : KernelEvalContext) (x : NdArrayRef) : Prog NdArrayRef := do
  let field := x.eltype.field
  let x_cache ← getCache x false
  let numel := x.numel
  let ((a_buf, b_buf), dx) ← beaverSquare field numel x_cache.desc?
  enforce (a_buf.size = numel * field.sizeOf) "a_buf.size() == numel * SizeOf(field)"
  enforce (b_buf.size = numel * field.sizeOf) "b_buf.size() == numel * SizeOf(field)"
  let a := unflattenBuffer a_buf x.eltype x.shape
  let b := unflattenBuffer b_buf x.eltype x.shape
  let x_cache := x_cache.withDesc dx
  let x_a ← if x_cache.replay_desc.status ≠ .Init then pure x_cache.open_cache
    else allReduce (← ringSub x a)
  storeOpen x false x_cache x_a
  let z ← ringAdd ((← ringMul a x_a).mulScalar 2) b
  let z ← if ctx.rank = 0 then do ringAdd z (← ringMul x_a x_a) else pure z
  z.as x.eltype

/-- `MulA1B::proc`: an arithmetic share times a boolean share of one bit, through `MulOpen`
on `xx = (1 - 2 y) x` and `yy = y & 1`. -/
def MulA1B.proc (ctx : KernelEvalContext) (x y : NdArrayRef) : Prog NdArrayRef := do
  enforce (x.eltype.field = y.eltype.field)
    "x.eltype().as<RingTy>()->field() == y.eltype().as<RingTy>()->field()"
  let field := x.eltype.field
  let yy ← (y.bitmask 0 1).as (RingTy field)
  let xx ← ringSub (ringOnes field x.shape) (yy.lshift [1])
  let xx ← ringMul xx x
  let (a, b, c, xx_a, yy_b) ← MulOpen ctx xx yy false
  let b ← ringMul b xx_a
  let a ← ringMul a yy_b
  let b ← ringAdd b a
  let b ← ringAdd b c
  let xx ← ringMul xx yy
  let b ← ringSub b xx
  let b ← if ctx.rank = 0 then do ringAdd b (← ringMul xx_a yy_b) else pure b
  let b ← ringAdd b (← ringMul x yy)
  b.as x.eltype

/-- `MatMulAA::proc`: `z = (x - a) b + a (y - b) + c`, plus the product of the openings on
rank 0, all matrix products. -/
def MatMulAA.proc (ctx : KernelEvalContext) (x y : NdArrayRef) : Prog NdArrayRef := do
  let (a, b, c, x_a, y_b) ← MulOpen ctx x y true
  let z ← ringAdd (← ringAdd (← ringMmul x_a b) (← ringMmul a y_b)) c
  let z ← if ctx.rank = 0 then do ringAdd z (← ringMmul x_a y_b) else pure z
  z.as x.eltype

/-- A kernel argument: an array and, for a complex value, its imaginary part. -/
structure Value where
  data : NdArrayRef
  imag : Option NdArrayRef

/-- `BeaverCacheKernel::evaluate`: turn caching on or off for a value and its imaginary
part. -/
def BeaverCacheKernel.evaluate (v : Value) (enable_cache : Bool) : Prog Unit := do
  if enable_cache then
    enableCache v.data
    match v.imag with
    | some im => enableCache im
    | none => pure ()
  else
    disableCache v.data
    match v.imag with
    | some im => disableCache im
    | none => pure ()

end Semi2k
