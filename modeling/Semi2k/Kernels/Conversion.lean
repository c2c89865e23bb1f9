import Semi2k.Core.Prog

/-!
# Conversion, additive and local kernels

`RandA`, `P2A`, `A2P`, `A2V`, `V2A`, `NegateA`, the add family, `MulAP`, `MatMulAP` and
`LShiftA` of `arithmetic.cc`, one party's code each.  Only `A2P` and `A2V` communicate;
`P2A`, `V2A` and `RandA` draw correlated randomness; the rest is local ring arithmetic.
-/

namespace Semi2k

open NdArrayRef

/-- `in.eltype().as<AShrTy>()->field()`: the cast fails unless `in` is an arithmetic share. -/
def aShrField (in_ : NdArrayRef) : Prog FieldType :=
  if in_.eltype.kind = .AShr then .pure in_.eltype.field else .throw "cast to AShrTy failed"

/-- `in.eltype().as<Priv2kTy>()->owner()`. -/
def privOwner (in_ : NdArrayRef) : Prog ℕ :=
  match in_.eltype.owner? with
  | some r => .pure r
  | none => .throw "cast to Priv2kTy failed"

/-- `RandA::proc`: a private random array shifted right by two bits. -/
def RandA.proc (ctx : KernelEvalContext) (shape : Shape) : Prog NdArrayRef := do
  let field := ctx.config.field
  let r ← genPriv field shape
  (r.rshift [2]).as (AShrTy field)

/-- `P2A::proc`: a PRSS zero sharing, plus the public value on rank 0. -/
def P2A.proc (ctx : KernelEvalContext) (in_ : NdArrayRef) : Prog NdArrayRef := do
  let field := in_.eltype.field
  let (r0, r1) ← genPrssPair field in_.shape
  let x ← (← ringSub r0 r1).as (AShrTy field)
  let x ← if ctx.rank = 0 then ringAdd x in_ else pure x
  x.as (AShrTy field)

/-- `A2P::proc`: open by an all-reduce. -/
def A2P.proc (_ctx : KernelEvalContext) (in_ : NdArrayRef) : Prog NdArrayRef := do
  let field := in_.eltype.field
  let out ← allReduce in_
  out.as (Pub2kTy field)

/-- `A2V::proc`: gather every share on `rank`, which sums them; the other ranks hold the
zero placeholder. -/
def A2V.proc (ctx : KernelEvalContext) (in_ : NdArrayRef) (rank : ℕ) : Prog NdArrayRef := do
  let field ← aShrField in_
  let out_ty := Priv2kTy field rank
  let numel := in_.numel
  let share := (List.range numel).map in_.data
  let shares ← gather share rank
  if ctx.rank = rank then
    enforce (shares.length = ctx.worldSize) "shares.size() == comm->getWorldSize()"
    pure (ofFun out_ty in_.shape fun idx => (shares.map fun s => s.getD idx 0).sum)
  else
    pure (constant out_ty in_.shape)

/-- `V2A::proc`: a PRSS zero sharing, plus the private value on its owner. -/
def V2A.proc (ctx : KernelEvalContext) (in_ : NdArrayRef) : Prog NdArrayRef := do
  let owner_rank ← privOwner in_
  let field := in_.eltype.field
  let (r0, r1) ← genPrssPair field in_.shape
  let x ← (← ringSub r0 r1).as (AShrTy field)
  let x ← if ctx.rank = owner_rank then ringAdd x in_ else pure x
  x.as (AShrTy field)

/-- `NegateA::proc`. -/
def NegateA.proc (_ctx : KernelEvalContext) (in_ : NdArrayRef) : Prog NdArrayRef :=
  in_.neg.as in_.eltype

/-- `AddAP::proc`: only rank 0 adds the public operand. -/
def AddAP.proc (ctx : KernelEvalContext) (lhs rhs : NdArrayRef) : Prog NdArrayRef := do
  enforce (lhs.numel = rhs.numel) "lhs.numel() == rhs.numel()"
  if ctx.rank = 0 then
    (← ringAdd lhs rhs).as lhs.eltype
  else
    pure lhs

/-- `AddAA::proc`. -/
def AddAA.proc (_ctx : KernelEvalContext) (lhs rhs : NdArrayRef) : Prog NdArrayRef := do
  enforce (lhs.numel = rhs.numel) "lhs.numel() == rhs.numel()"
  enforce (lhs.eltype = rhs.eltype) "lhs.eltype() == rhs.eltype()"
  (← ringAdd lhs rhs).as lhs.eltype

/-- `MulAP::proc`. -/
def MulAP.proc (_ctx : KernelEvalContext) (lhs rhs : NdArrayRef) : Prog NdArrayRef := do
  (← ringMul lhs rhs).as lhs.eltype

/-- `MatMulAP::proc`. -/
def MatMulAP.proc (_ctx : KernelEvalContext) (x y : NdArrayRef) : Prog NdArrayRef := do
  (← ringMmul x y).as x.eltype

/-- `LShiftA::proc`. -/
def LShiftA.proc (_ctx : KernelEvalContext) (in_ : NdArrayRef) (bits : List ℕ) :
    Prog NdArrayRef :=
  (in_.lshift bits).as in_.eltype

end Semi2k
