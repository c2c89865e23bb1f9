import Semi2k.Products
import Semi2k.Kernels.Truncation

/-!
# Operands of two rings

What the binary kernels do with operands of two different fields.  The local kernels refuse
them at once: `AddAA` compares the element types, `MulA1B` the fields, and `ring_add`,
`ring_mul` and `ring_mmul` compare the fields before computing.  `AddAP` adds the public
operand on rank 0 only, so every other rank returns its share without looking at the public
operand's field.  `MulAA`, `MatMulAA` and `MulVVS` compare no field before their first
request: whatever the fields, they draw from the Beaver source first, and `MulAA` and
`MatMulAA` go on to open both maskings before the first local product fails, against the
invariant that a field mismatch fails before any communication.
-/

namespace Semi2k

open NdArrayRef

/-! ## The local kernels -/

section Local

variable {x y : NdArrayRef} (hf : x.eltype.field ≠ y.eltype.field)
include hf

theorem checkBinary_of_field_ne : checkBinary x y = .error "type mismatch" := by
  simp [checkBinary, hf]

theorem ringAdd_of_field_ne : ringAdd x y = .error "type mismatch" := by
  simp [ringAdd, checkBinary_of_field_ne hf]; rfl

theorem ringMul_of_field_ne : ringMul x y = .error "type mismatch" := by
  simp [ringMul, checkBinary_of_field_ne hf]; rfl

theorem ringMmul_of_field_ne : ringMmul x y = .error "type mismatch" := by
  simp [ringMmul, hf]

variable (ctx : KernelEvalContext)

/-- `AddAA` fails on its first check that fails: the sizes, then the element types. -/
theorem AddAA_of_field_ne :
    AddAA.proc ctx x y = .throw (if x.numel = y.numel then "lhs.eltype() == rhs.eltype()"
      else "lhs.numel() == rhs.numel()") := by
  have hty : x.eltype ≠ y.eltype := fun h => hf (congrArg Ty.field h)
  unfold AddAA.proc
  split_ifs with hn <;> simp [hn, hty, Prog.bind_eq]

theorem MulAP_of_field_ne : MulAP.proc ctx x y = .throw "type mismatch" := by
  simp [MulAP.proc, ringMul_of_field_ne hf, Prog.bind_eq]

theorem MatMulAP_of_field_ne : MatMulAP.proc ctx x y = .throw "type mismatch" := by
  simp [MatMulAP.proc, ringMmul_of_field_ne hf, Prog.bind_eq]

theorem MulA1B_of_field_ne :
    MulA1B.proc ctx x y =
      .throw "x.eltype().as<RingTy>()->field() == y.eltype().as<RingTy>()->field()" := by
  simp [MulA1B.proc, hf, Prog.bind_eq]

/-- `AddAP` checks the public operand's field on rank 0 only: every other rank returns its
share as it is. -/
theorem AddAP_of_field_ne :
    AddAP.proc ctx x y = if x.numel = y.numel then
        (if ctx.rank = 0 then .throw "type mismatch" else .pure x)
      else .throw "lhs.numel() == rhs.numel()" := by
  by_cases hn : x.numel = y.numel <;> by_cases hr : ctx.rank = 0 <;>
    simp [AddAP.proc, hn, hr, ringAdd_of_field_ne hf, Prog.bind_eq]

end Local

/-! ## The kernels that draw first -/

section Draws

variable {N : ℕ} [NeZero N] (W : World N) (cfg : RuntimeConfig) (s : Sys N)
  (x y : Fin N → NdArrayRef) (fuel : ℕ)

/-- `MulAA` looks both operands up and draws an elementwise triple before anything of the
operands but their shapes is checked. -/
theorem run_MulAA_draws (hs : ∀ i, (x i).shape = (y i).shape) :
    ∃ p, run W (fuel + 3) s (fun i => MulAA.proc (cfg.ctx N i) (x i) (y i)) =
      run W fuel { s with draws := s.draws + 1 } p := by
  simp only [MulAA.proc, MulOpen, Prog.bind_eq, Prog.bind_assoc]
  rw [run_getCache, run_getCache]
  simp only [mulShape, hs, Bool.false_eq_true, if_false, decide_True, enforce_true,
    Prog.bind_eq, Prog.pure_eq, Prog.pure_bind, Prog.bind_assoc]
  rw [run_mulTriple]
  exact ⟨_, rfl⟩

/-- `MatMulAA` on matrices of matching inner dimension draws a dot triple first. -/
theorem run_MatMulAA_draws (m n p : ℕ) (hxs : ∀ i, (x i).shape = [m, n])
    (hys : ∀ i, (y i).shape = [n, p]) :
    ∃ q, run W (fuel + 3) s (fun i => MatMulAA.proc (cfg.ctx N i) (x i) (y i)) =
      run W fuel { s with draws := s.draws + 1 } q := by
  simp only [MatMulAA.proc, MulOpen, Prog.bind_eq, Prog.bind_assoc]
  rw [run_getCache, run_getCache]
  simp only [mulShape, hxs, hys, if_true, List.getD_cons_succ, List.getD_cons_zero,
    decide_True, enforce_true, Prog.bind_eq, Prog.pure_eq, Prog.pure_bind, Prog.bind_assoc]
  rw [run_mulTriple_dot W fuel s _ x y m n p hxs hys]
  exact ⟨_, rfl⟩

end Draws

/-- `MulVVS` draws its private-multiply pair on both ranks before it adds anything, so
before any field is compared. -/
theorem run_MulVVS_draws (W : World 2) (cfg : RuntimeConfig) (s : Sys 2)
    (x y : Fin 2 → NdArrayRef) (hx : ∀ i, (x i).eltype.owner? = some 0)
    (hy : ∀ i, (y i).eltype.owner? = some 1) (fuel : ℕ) :
    ∃ p, run W (fuel + 1) s (fun i => MulVVS.proc (cfg.ctx 2 i) (x i) (y i)) =
      run W fuel { s with draws := s.draws + 1 } p := by
  simp only [MulVVS.proc, privOwner, hx, hy, Prog.bind_eq, Prog.pure_bind, Prog.bind_assoc,
    RuntimeConfig.ctx_rank, ite_rank_two, Prog.pure_eq, Prog.ite_pure, beaverMulPriv,
    Prog.req_bind, ne_eq, zero_ne_one, not_false_eq_true, decide_True, enforce_true]
  rw [run_req W _ s _ _ _ _ (respond_beaverMulPriv W s (fun i => (x i).eltype.field)
    (fun i => (x i).numel)) fun _ => rfl]
  exact ⟨_, rfl⟩

/-! ## All binary kernels -/

/-- Which binary kernels refuse operands of two fields before any side effect: `AddAA`,
`MulAP`, `MatMulAP` and `MulA1B` on every rank and `AddAP` on rank 0, while `AddAP`'s other
ranks return their share, and `MulAA`, `MatMulAA` and `MulVVS` draw from the Beaver source
before any field is compared. -/
theorem binary_kernels_on_two_fields {N : ℕ} [NeZero N] (W : World N) (cfg : RuntimeConfig)
    (s : Sys N) (x y : Fin N → NdArrayRef) (hf : ∀ i, (x i).eltype.field ≠ (y i).eltype.field)
    (fuel : ℕ) :
    (∀ i, AddAA.proc (cfg.ctx N i) (x i) (y i) =
        .throw (if (x i).numel = (y i).numel then "lhs.eltype() == rhs.eltype()"
          else "lhs.numel() == rhs.numel()") ∧
      MulAP.proc (cfg.ctx N i) (x i) (y i) = .throw "type mismatch" ∧
      MatMulAP.proc (cfg.ctx N i) (x i) (y i) = .throw "type mismatch" ∧
      MulA1B.proc (cfg.ctx N i) (x i) (y i) =
        .throw "x.eltype().as<RingTy>()->field() == y.eltype().as<RingTy>()->field()" ∧
      AddAP.proc (cfg.ctx N i) (x i) (y i) = if (x i).numel = (y i).numel then
          (if (i : ℕ) = 0 then .throw "type mismatch" else .pure (x i))
        else .throw "lhs.numel() == rhs.numel()") ∧
    ((∀ i, (x i).shape = (y i).shape) →
      ∃ p, run W (fuel + 3) s (fun i => MulAA.proc (cfg.ctx N i) (x i) (y i)) =
        run W fuel { s with draws := s.draws + 1 } p) ∧
    (∀ m n p, (∀ i, (x i).shape = [m, n]) → (∀ i, (y i).shape = [n, p]) →
      ∃ q, run W (fuel + 3) s (fun i => MatMulAA.proc (cfg.ctx N i) (x i) (y i)) =
        run W fuel { s with draws := s.draws + 1 } q) ∧
    (N = 2 → (∀ i, (x i).eltype.owner? = some 0) → (∀ i, (y i).eltype.owner? = some 1) →
      ∃ p, run W (fuel + 1) s (fun i => MulVVS.proc (cfg.ctx N i) (x i) (y i)) =
        run W fuel { s with draws := s.draws + 1 } p) := by
  refine ⟨fun i => ⟨AddAA_of_field_ne (hf i) _, MulAP_of_field_ne (hf i) _,
      MatMulAP_of_field_ne (hf i) _, MulA1B_of_field_ne (hf i) _, AddAP_of_field_ne (hf i) _⟩,
    run_MulAA_draws W cfg s x y fuel, fun m n p => run_MatMulAA_draws W cfg s x y fuel m n p,
    fun hN => ?_⟩
  subst hN
  exact fun hx hy => run_MulVVS_draws W cfg s x y hx hy fuel

/-- Two parties, one element, `x` in the 64-bit ring and `y` in the 32-bit one, from a fresh
session: `MulAA` and `MatMulAA` draw a triple and send the batched opening of both maskings,
and only then fail at their first local product with `ring_mul`'s type mismatch; `MulVVS`
draws its private-multiply pair on both ranks, after which rank 1 fails at its first
addition; `MulA1B` refuses the same operands in the state the run started from. -/
theorem products_draw_before_field_check :
    (∃ s', run (World.replaying 2) 8 (Sys.init 2) (fun i => MulAA.proc
        ((⟨false, .FM64⟩ : RuntimeConfig).ctx 2 i) (ofFun (AShrTy .FM64) [1] fun _ => i + 3)
        (ofFun (AShrTy .FM32) [1] fun _ => i + 5)) =
      .aborted "type mismatch" s' ∧ s'.draws = 1 ∧ s'.trace.length = 1) ∧
    (∃ s', run (World.replaying 2) 8 (Sys.init 2) (fun i => MatMulAA.proc
        ((⟨false, .FM64⟩ : RuntimeConfig).ctx 2 i) (ofFun (AShrTy .FM64) [1, 1] fun _ => i + 3)
        (ofFun (AShrTy .FM32) [1, 1] fun _ => i + 5)) =
      .aborted "type mismatch" s' ∧ s'.draws = 1 ∧ s'.trace.length = 1) ∧
    (∃ p, (∀ fuel, run (World.replaying 2) (fuel + 1) (Sys.init 2) (fun i => MulVVS.proc
        ((⟨false, .FM64⟩ : RuntimeConfig).ctx 2 i) (ofFun (Priv2kTy .FM64 0) [1] fun _ => i + 3)
        (ofFun (Priv2kTy .FM32 1) [1] fun _ => i + 5)) =
      run (World.replaying 2) fuel { Sys.init 2 with draws := 1 } p) ∧
      p 1 = .throw "type mismatch") ∧
    run (World.replaying 2) 1 (Sys.init 2) (fun i => MulA1B.proc
        ((⟨false, .FM64⟩ : RuntimeConfig).ctx 2 i) (ofFun (AShrTy .FM64) [1] fun _ => i + 3)
        (ofFun (AShrTy .FM32) [1] fun _ => i + 5)) =
      .aborted "x.eltype().as<RingTy>()->field() == y.eltype().as<RingTy>()->field()"
        (Sys.init 2) :=
  ⟨⟨_, rfl, rfl, rfl⟩, ⟨_, rfl, rfl, rfl⟩, ⟨_, fun _ => rfl, rfl⟩, rfl⟩

end Semi2k
