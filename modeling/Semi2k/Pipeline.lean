import Semi2k.Reconstruction
import Semi2k.Products

/-!
# Sharing, multiplying and opening

The kernels are run one after another on the state each leaves: `P2A` shares two public
values from two PRSS draws, `MulAA` multiplies the sharings with a Beaver triple, and `A2P`
opens the product.  Every party ends with the product of the two values in the ring, for
every number of parties, whatever the caches hold: the arrays `P2A` makes have no identity,
so `MulAA` never looks them up.
-/

namespace Semi2k

open NdArrayRef

variable {N : ℕ} [NeZero N] (W : World N)

/-- Share two public values, multiply the sharings and open the product: every party ends
with the product of the values, element by element. -/
theorem share_multiply_open (cfg : RuntimeConfig) (s : Sys N) (f : FieldType)
    (p q : NdArrayRef) (hp : p.eltype.field = f) (hq : q.eltype.field = f)
    (hpq : p.shape = q.shape) (hW₀ : PrssCorrelated W s.draws)
    (hW₁ : PrssCorrelated W (s.draws + 1)) (hW₂ : MulTriple W f (s.draws + 2) p.shape.prod)
    (fuel : ℕ) :
    ∃ x s₁, run W (fuel + 2) s (fun i => P2A.proc (cfg.ctx N i) p) = .done x s₁ ∧
    ∃ y s₂, run W (fuel + 2) s₁ (fun i => P2A.proc (cfg.ctx N i) q) = .done y s₂ ∧
    ∃ z s₃, run W (fuel + 8) s₂ (fun i => MulAA.proc (cfg.ctx N i) (x i) (y i)) = .done z s₃ ∧
    ∃ out s₄, run W (fuel + 2) s₃ (fun i => A2P.proc (cfg.ctx N i) (z i)) = .done out s₄ ∧
      ∀ i, ∀ idx < p.shape.prod, (out i).data idx = p.data idx * q.data idx % 2 ^ f.width := by
  obtain ⟨x, hx, hxt, hxr⟩ := P2A_reconstruct W s cfg hW₀ p fuel
  obtain ⟨y, hy, hyt, hyr⟩ := P2A_reconstruct W { s with draws := s.draws + 1 } cfg hW₁ q fuel
  let s₂ : Sys N := { s with draws := s.draws + 2 }
  have hmiss : ∀ (u : Fin N → NdArrayRef), (∀ i, (u i).buf = none) → ∀ i,
      ((s₂.cache i).getCache (u i) false).replay_desc.status = .Init ↔ True := fun u hu i =>
    iff_true_intro (by rw [BeaverCache.getCache_of_buf_none _ (hu i)]; rfl)
  have hxf : ∀ i, (x i).eltype.field = f := fun i => by rw [(hxt i).1, AShrTy_field, hp]
  have hyf : ∀ i, (y i).eltype.field = f := fun i => by rw [(hyt i).1, AShrTy_field, hq]
  have hys : ∀ i, (y i).shape = p.shape := fun i => (hyt i).2.1.trans hpq.symm
  obtain ⟨X, Y, z, msgs, -, hz, hzr⟩ := run_MulAA W cfg s₂ f p.shape x y hxf hyf
    (fun i => (hxt i).2.1) hys True True (hmiss x fun i => (hxt i).2.2)
    (hmiss y fun i => (hyt i).2.2) (fun h => absurd trivial h) (fun h => absurd trivial h) fuel
  obtain ⟨_, _, z', _, _, hz', hzt⟩ := run_MulAA_shares W cfg s₂ f p.shape x y hxf hyf
    (fun i => (hxt i).2.1) hys True True (hmiss x fun i => (hxt i).2.2)
    (hmiss y fun i => (hyt i).2.2) (fun h => absurd trivial h) (fun h => absurd trivial h) fuel
  obtain ⟨rfl, -⟩ := Outcome.done.inj (hz'.symm.trans hz)
  obtain ⟨out, hout, ho⟩ := A2P_open W _ cfg f z' (fun i => by rw [(hzt i).1, hxf]) fuel
  refine ⟨x, _, hx, y, _, hy, z', _, hz, out, _, hout, fun i idx hidx => ?_⟩
  refine eq_of_natCast_eq (data_lt_of_field (by rw [(ho i).1]; rfl) idx)
    (Nat.mod_lt _ (Nat.two_pow_pos _)) ?_
  rw [(ho i).2.2, hzr hW₂ idx hidx, ← hp, hxr, hp, ← hq, hyr]
  simp

theorem share_multiply_open_two_parties :
    ∃ x s₁, run (World.replaying 2) (0 + 2) (Sys.init 2)
        (fun i => P2A.proc ((⟨false, .FM64⟩ : RuntimeConfig).ctx 2 i)
          (ofFun (Pub2kTy .FM64) [2] fun idx => idx + 6)) = .done x s₁ ∧
    ∃ y s₂, run (World.replaying 2) (0 + 2) s₁
        (fun i => P2A.proc ((⟨false, .FM64⟩ : RuntimeConfig).ctx 2 i)
          (ofFun (Pub2kTy .FM64) [2] fun idx => 2 * idx + 7)) = .done y s₂ ∧
    ∃ z s₃, run (World.replaying 2) (0 + 8) s₂
        (fun i => MulAA.proc ((⟨false, .FM64⟩ : RuntimeConfig).ctx 2 i) (x i) (y i)) =
          .done z s₃ ∧
    ∃ out s₄, run (World.replaying 2) (0 + 2) s₃
        (fun i => A2P.proc ((⟨false, .FM64⟩ : RuntimeConfig).ctx 2 i) (z i)) = .done out s₄ ∧
      ∀ i, ∀ idx < [2].prod,
        (out i).data idx = (ofFun (Pub2kTy .FM64) [2] fun idx => idx + 6).data idx *
          (ofFun (Pub2kTy .FM64) [2] fun idx => 2 * idx + 7).data idx % 2 ^ FieldType.FM64.width :=
  share_multiply_open (World.replaying 2) ⟨false, .FM64⟩ (Sys.init 2) .FM64
    (ofFun (Pub2kTy .FM64) [2] fun idx => idx + 6) (ofFun (Pub2kTy .FM64) [2] fun idx => 2 * idx + 7)
    rfl rfl rfl (prssCorrelated_replaying _) (prssCorrelated_replaying _)
    (replaying_mulTriple _ _ _) 0

end Semi2k
