import Semi2k.Products

/-!
# The product kernels' shape checks

`MulOpen` enforces its operands' shapes before it asks for a Beaver triple
(`x.shape() == y.shape()`, or `x.shape()[1] == y.shape()[0]` for a matrix product), and
`MulA1B` meets the same condition in `ring_sub` before its opening.  Shapes are public, so
the parties' operands pass or fail the check together; when they fail it on every party,
every party throws at the same step, before any request, and the run aborts with the
check's message in the state it started from: no triple drawn, no message sent, no cache
entry written.  The results are stated for a mismatch on every party: were the shapes to
differ on some parties only, the others would go on to draw and open, which the run, stopping
every party at the first throw, does not follow.
-/

namespace Semi2k

open NdArrayRef

theorem checkBinary_of_shape_ne {u v : NdArrayRef} (hf : u.eltype.field = v.eltype.field)
    (hs : u.shape ≠ v.shape) : checkBinary u v = .error "shape mismatch" := by
  simp [checkBinary, hf, hs]

theorem ringSub_of_shape_ne {u v : NdArrayRef} (hf : u.eltype.field = v.eltype.field)
    (hs : u.shape ≠ v.shape) : ringSub u v = .error "shape mismatch" := by
  simp [ringSub, checkBinary_of_shape_ne hf hs]
  rfl

section Kernels

variable {N : ℕ} [NeZero N] (W : World N) (cfg : RuntimeConfig) (s : Sys N)
  (x y : Fin N → NdArrayRef) (fuel : ℕ)

/-- A kernel that opens through `MulOpen` aborts with `mulShape`'s message, in the state the
run started from, when every party fails the shape check. -/
theorem run_MulOpen_of_mulShape {β : Type} (mmul : Bool)
    (k : Fin N → NdArrayRef × NdArrayRef × NdArrayRef × NdArrayRef × NdArrayRef → Prog β)
    (m : String) (hall : ∀ j, mulShape (x j) (y j) mmul = .throw m) :
    run W (fuel + 3) s (fun i => (MulOpen (cfg.ctx N i) (x i) (y i) mmul).bind (k i)) =
      .aborted m s := by
  simp only [MulOpen, Prog.bind_eq, Prog.bind_assoc]
  rw [run_getCache, run_getCache]
  simp only [hall, Prog.throw_bind]
  exact run_throw W _ s m

theorem run_MulAA_of_shape_ne (hne : ∀ i, (x i).shape ≠ (y i).shape) :
    run W (fuel + 3) s (fun i => MulAA.proc (cfg.ctx N i) (x i) (y i)) =
      .aborted "x.shape() == y.shape()" s := by
  simp only [MulAA.proc, Prog.bind_eq]
  exact run_MulOpen_of_mulShape W cfg s x y fuel false _ _ fun j => by simp [mulShape, hne j]

/-- `MulA1B` checks the shapes in `ring_sub (ring_ones, yy << 1)`, whose operands have the
shapes of `x` and `y`. -/
theorem MulA1B_of_shape_ne (ctx : KernelEvalContext) {u v : NdArrayRef}
    (hf : u.eltype.field = v.eltype.field) (hs : u.shape ≠ v.shape) :
    MulA1B.proc ctx u v = .throw "shape mismatch" := by
  simp only [MulA1B.proc, hf, decide_True, enforce_true, RingTy_field, bitmask_eltype, as_eq,
    Prog.monadLift_eq, Prog.ofExcept_ok, ringOnes, Prog.bind_eq, Prog.pure_bind, ofFun_eltype,
    lshift_eltype, retype_eltype, ofFun_shape, lshift_shape, retype_shape, bitmask_shape,
    ne_eq, hs, not_false_eq_true, ringSub_of_shape_ne, Prog.ofExcept_error, Prog.throw_bind]

theorem run_MulA1B_of_shape_ne (hf : ∀ i, (x i).eltype.field = (y i).eltype.field)
    (hne : ∀ i, (x i).shape ≠ (y i).shape) :
    run W (fuel + 1) s (fun i => MulA1B.proc (cfg.ctx N i) (x i) (y i)) =
      .aborted "shape mismatch" s := by
  simp only [MulA1B_of_shape_ne _ (hf _) (hne _)]
  exact run_throw W _ s _

end Kernels

end Semi2k
