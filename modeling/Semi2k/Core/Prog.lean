import Semi2k.Core.RingOps

/-!
# Kernel programs

A kernel runs on every party.  On one party it computes locally and, at some points, asks
its evaluation context for something: the communicator (all-reduce, gather, send,
receive), the correlated-randomness source (PRSS pairs, private randomness), the Beaver
source, or the Beaver replay cache.  `Prog` is that computation as a tree: a request
carries the continuation that reads its response, and a failed `SPU_ENFORCE` or
`SPU_THROW` is a leaf.  Which response each request gets is decided when all parties run
together (`Semi2k.Joint`).

The typed wrappers at the end (`allReduce`, `beaverMul`, `getCache`, ...) are the calls the
source makes; the kernels are written against them in `do` notation.
-/

namespace Semi2k

/-- Status of a replay descriptor, `Beaver::Init` or a recorded one. -/
inductive ReplayStatus
  | Init
  | Replay
  deriving DecidableEq, Repr

/-- `Beaver::ReplayDesc`: its status, and what the Beaver source recorded into it for this
party, the mask shares it returned. -/
structure ReplayDesc where
  status : ReplayStatus
  mask : Buffer

/-- A fresh descriptor, `status == Beaver::Init`. -/
def ReplayDesc.init : ReplayDesc := ⟨.Init, ⟨0, fun _ => 0⟩⟩

/-- `BeaverCache::Cache`: whether caching is on for an operand, the descriptor to hand the
Beaver source, and the opened masking stored with it. -/
structure Cache where
  enabled : Bool
  replay_desc : ReplayDesc
  open_cache : NdArrayRef

/-- What a kernel can ask of its evaluation context. -/
inductive Request where
  | allReduce (x : NdArrayRef)
  | gather (x : List ℕ) (root : ℕ)
  | sendAsync (dst : ℕ) (x : NdArrayRef)
  | recv (src : ℕ) (ty : Ty)
  | genPrssPair (field : FieldType) (shape : Shape)
  | genPriv (field : FieldType) (shape : Shape)
  | beaverMul (field : FieldType) (numel : ℕ) (dx dy : Option ReplayDesc)
  | beaverDot (field : FieldType) (m n k : ℕ) (dx dy : Option ReplayDesc)
  | beaverSquare (field : FieldType) (numel : ℕ) (dx : Option ReplayDesc)
  | beaverTrunc (field : FieldType) (numel bits : ℕ)
  | beaverTruncPr (field : FieldType) (numel bits : ℕ)
  | beaverMulPriv (field : FieldType) (numel : ℕ)
  | getCache (x : NdArrayRef) (mmul : Bool)
  | setCache (x : NdArrayRef) (mmul : Bool) (desc : ReplayDesc) (open_cache : NdArrayRef)
  | enableCache (x : NdArrayRef)
  | disableCache (x : NdArrayRef)

/-- What a request is answered with. -/
inductive Response where
  | arr (x : NdArrayRef)
  | arrs (x y : NdArrayRef)
  | gathered (xs : List (List ℕ))
  | bufs (bs : List Buffer) (dx dy : Option ReplayDesc)
  | cache (c : Cache)
  | unit

/-- A kernel's computation on one party. -/
inductive Prog (α : Type) where
  | pure (a : α)
  | throw (msg : String)
  | req (r : Request) (k : Response → Prog α)

namespace Prog

/-- Graft a continuation at every `pure` leaf. -/
def bind {α β : Type} : Prog α → (α → Prog β) → Prog β
  | pure a, f => f a
  | throw m, _ => throw m
  | req r k, f => req r fun x => bind (k x) f

instance : Monad Prog where
  pure := pure
  bind := bind

/-- A failure of a ring primitive fails the kernel. -/
def ofExcept {α : Type} : Except String α → Prog α
  | .ok a => pure a
  | .error e => throw e

instance : MonadLift (Except String) Prog := ⟨ofExcept⟩

variable {α β γ : Type}

@[simp] theorem pure_eq (a : α) : (Pure.pure a : Prog α) = Prog.pure a := rfl

@[simp] theorem bind_eq (x : Prog α) (f : α → Prog β) : x >>= f = x.bind f := rfl

@[simp] theorem monadLift_eq (e : Except String α) :
    (MonadLiftT.monadLift e : Prog α) = ofExcept e := rfl

@[simp] theorem liftM_eq (e : Except String α) : (liftM e : Prog α) = ofExcept e := rfl

@[simp] theorem ite_pure (c : Prop) [Decidable c] (a b : α) :
    (if c then pure a else pure b) = pure (if c then a else b) := by
  split <;> rfl

@[simp] theorem pure_bind (a : α) (f : α → Prog β) : (pure a).bind f = f a := rfl

@[simp] theorem throw_bind (m : String) (f : α → Prog β) : (throw m).bind f = throw m := rfl

@[simp] theorem req_bind (r : Request) (k : Response → Prog α) (f : α → Prog β) :
    (req r k).bind f = req r fun x => (k x).bind f := rfl

@[simp] theorem ofExcept_ok (a : α) : ofExcept (.ok a : Except String α) = pure a := rfl

@[simp] theorem ofExcept_error (e : String) : ofExcept (.error e : Except String α) = throw e :=
  rfl

theorem bind_assoc (x : Prog α) (f : α → Prog β) (g : β → Prog γ) :
    (x.bind f).bind g = x.bind fun a => (f a).bind g := by
  induction x with
  | pure a => rfl
  | throw m => rfl
  | req r k ih => simp only [req_bind, ih]

@[simp] theorem bind_pure (x : Prog α) : x.bind pure = x := by
  induction x with
  | pure a => rfl
  | throw m => rfl
  | req r k ih => simp only [req_bind, ih]

end Prog

/-- The runtime configuration all parties share: the switch that turns off the batched
opening of `MulOpen`, and the default field of `Z2kState`. -/
structure RuntimeConfig where
  experimental_disable_vectorization : Bool
  field : FieldType

/-- What a kernel reads of its `KernelEvalContext` besides the services: the party's rank,
the number of parties and the runtime configuration. -/
structure KernelEvalContext where
  rank : ℕ
  worldSize : ℕ
  config : RuntimeConfig

/-- The context of party `i` of a run of `N` parties. -/
def RuntimeConfig.ctx (cfg : RuntimeConfig) (N : ℕ) (i : Fin N) : KernelEvalContext :=
  ⟨i, N, cfg⟩

@[simp] theorem RuntimeConfig.ctx_rank (cfg : RuntimeConfig) (N : ℕ) (i : Fin N) :
    (cfg.ctx N i).rank = i := rfl

@[simp] theorem RuntimeConfig.ctx_worldSize (cfg : RuntimeConfig) (N : ℕ) (i : Fin N) :
    (cfg.ctx N i).worldSize = N := rfl

@[simp] theorem RuntimeConfig.ctx_config (cfg : RuntimeConfig) (N : ℕ) (i : Fin N) :
    (cfg.ctx N i).config = cfg := rfl

/-- `comm->nextRank()`. -/
def KernelEvalContext.nextRank (ctx : KernelEvalContext) : ℕ := (ctx.rank + 1) % ctx.worldSize

/-- `comm->prevRank()`. -/
def KernelEvalContext.prevRank (ctx : KernelEvalContext) : ℕ :=
  (ctx.rank + ctx.worldSize - 1) % ctx.worldSize

/-- `SPU_ENFORCE(cond)`. -/
def enforce (cond : Bool) (msg : String) : Prog Unit :=
  if cond then .pure () else .throw msg

@[simp] theorem enforce_true (msg : String) : enforce true msg = .pure () := rfl

@[simp] theorem enforce_false (msg : String) : enforce false msg = .throw msg := rfl

/-! ## The calls a kernel makes -/

/-- Reading a response of the wrong form; a run never answers a request so. -/
def protocolError {α : Type} : Prog α := .throw "unexpected response"

/-- `comm->allReduce(ReduceOp::ADD, x, tag)`. -/
def allReduce (x : NdArrayRef) : Prog NdArrayRef :=
  .req (.allReduce x) fun
    | .arr y => .pure y
    | _ => protocolError

/-- `comm->gather(x, root, tag)`: every party's vector on `root`, nothing elsewhere. -/
def gather (x : List ℕ) (root : ℕ) : Prog (List (List ℕ)) :=
  .req (.gather x root) fun
    | .gathered xs => .pure xs
    | _ => protocolError

/-- `comm->sendAsync(dst, x, tag)`. -/
def sendAsync (dst : ℕ) (x : NdArrayRef) : Prog Unit :=
  .req (.sendAsync dst x) fun _ => .pure ()

/-- `comm->recv(src, ty, tag)`. -/
def recv (src : ℕ) (ty : Ty) : Prog NdArrayRef :=
  .req (.recv src ty) fun
    | .arr y => .pure y
    | _ => protocolError

/-- `prg_state->genPrssPair(field, shape, GenPrssCtrl::Both)`. -/
def genPrssPair (field : FieldType) (shape : Shape) : Prog (NdArrayRef × NdArrayRef) :=
  .req (.genPrssPair field shape) fun
    | .arrs r0 r1 => .pure (r0, r1)
    | _ => protocolError

/-- `prg_state->genPriv(field, shape)`. -/
def genPriv (field : FieldType) (shape : Shape) : Prog NdArrayRef :=
  .req (.genPriv field shape) fun
    | .arr r => .pure r
    | _ => protocolError

/-- `beaver->Mul(field, numel, x_desc, y_desc)`: a triple, and the descriptors as the
source left them. -/
def beaverMul (field : FieldType) (numel : ℕ) (dx dy : Option ReplayDesc) :
    Prog ((Buffer × Buffer × Buffer) × Option ReplayDesc × Option ReplayDesc) :=
  .req (.beaverMul field numel dx dy) fun
    | .bufs [a, b, c] dx' dy' => .pure ((a, b, c), dx', dy')
    | _ => protocolError

/-- `beaver->Dot(field, m, n, k, x_desc, y_desc)`. -/
def beaverDot (field : FieldType) (m n k : ℕ) (dx dy : Option ReplayDesc) :
    Prog ((Buffer × Buffer × Buffer) × Option ReplayDesc × Option ReplayDesc) :=
  .req (.beaverDot field m n k dx dy) fun
    | .bufs [a, b, c] dx' dy' => .pure ((a, b, c), dx', dy')
    | _ => protocolError

/-- `beaver->Square(field, numel, x_desc)`. -/
def beaverSquare (field : FieldType) (numel : ℕ) (dx : Option ReplayDesc) :
    Prog ((Buffer × Buffer) × Option ReplayDesc) :=
  .req (.beaverSquare field numel dx) fun
    | .bufs [a, b] dx' _ => .pure ((a, b), dx')
    | _ => protocolError

/-- `beaver->Trunc(field, numel, bits)`. -/
def beaverTrunc (field : FieldType) (numel bits : ℕ) : Prog (Buffer × Buffer) :=
  .req (.beaverTrunc field numel bits) fun
    | .bufs [r, rb] _ _ => .pure (r, rb)
    | _ => protocolError

/-- `beaver->TruncPr(field, numel, bits)`. -/
def beaverTruncPr (field : FieldType) (numel bits : ℕ) : Prog (Buffer × Buffer × Buffer) :=
  .req (.beaverTruncPr field numel bits) fun
    | .bufs [r, rc, rb] _ _ => .pure (r, rc, rb)
    | _ => protocolError

/-- `beaver->MulPriv(field, numel, ElementType::kRing)`. -/
def beaverMulPriv (field : FieldType) (numel : ℕ) : Prog (Buffer × Buffer) :=
  .req (.beaverMulPriv field numel) fun
    | .bufs [a, c] _ _ => .pure (a, c)
    | _ => protocolError

/-- `beaver_cache->GetCache(x, mmul)`. -/
def getCache (x : NdArrayRef) (mmul : Bool) : Prog Cache :=
  .req (.getCache x mmul) fun
    | .cache c => .pure c
    | _ => protocolError

/-- `beaver_cache->SetCache(x, desc, open)`, for the multiplication kind `mmul` at hand. -/
def setCache (x : NdArrayRef) (mmul : Bool) (desc : ReplayDesc) (o : NdArrayRef) : Prog Unit :=
  .req (.setCache x mmul desc o) fun _ => .pure ()

/-- `beaver_cache->EnableCache(x)`. -/
def enableCache (x : NdArrayRef) : Prog Unit :=
  .req (.enableCache x) fun _ => .pure ()

/-- `beaver_cache->DisableCache(x)`. -/
def disableCache (x : NdArrayRef) : Prog Unit :=
  .req (.disableCache x) fun _ => .pure ()

end Semi2k
