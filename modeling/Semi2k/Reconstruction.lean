import Semi2k.Kernels.Conversion
import Semi2k.SignedRing

/-!
# Conversions commute with reconstruction

For any number of parties, the conversion kernels move a value between its public, shared
and private forms without changing it, and the local kernels act on the shared value as
their ring operation does.  Each lemma runs the kernel on all parties: the ones that
communicate or draw randomness through `run_req`, the local ones in a single step.
-/

namespace Semi2k

open NdArrayRef

variable {N : ℕ} [NeZero N] (W : World N) (s : Sys N) (cfg : RuntimeConfig)

/-- `RandA` shares the sum of the parties' private draws, each shifted right by two bits on
its own: a logical shift of every share, not of the secret. -/
theorem RandA_reconstruct (shape : Shape) (fuel : ℕ) :
    ∃ z, run W (fuel + 2) s (fun i => RandA.proc (cfg.ctx N i) shape) =
        .done z { s with draws := s.draws + 1 } ∧
      (∀ i, (z i).eltype = AShrTy cfg.field ∧ (z i).shape = shape) ∧
      ∀ idx, reconstruct cfg.field z idx =
        ∑ i, ((W.priv s.draws i idx % 2 ^ cfg.field.width / 2 ^ 2 : ℕ) :
          ZMod (2 ^ cfg.field.width)) := by
  simp only [RandA.proc, genPriv, Prog.bind_eq, Prog.req_bind, RuntimeConfig.ctx_config]
  rw [run_req W (fuel + 1) s _ _ _ _ (respond_genPriv W s cfg.field shape) fun _ => rfl]
  simp
  refine ⟨_, run_pure W fuel _ _, fun i => ⟨rfl, rfl⟩, fun idx => ?_⟩
  simp [reconstruct, rshift, shiftAt]

/-- Two parties that both draw the largest element of the 64-bit ring. -/
def randAMaxDraws : World 2 := { World.zero 2 with priv := fun _ _ _ => 2 ^ 64 - 1 }

/-- Each share of `RandA` is below `2^(k-2)`, but their sum is not: with two parties that
both draw `2^64 - 1`, the secret read signed is `2^63 - 2`, outside `[-2^62, 2^62)`. -/
theorem RandA_two_parties_leaves_quarter :
    ∃ z s', run randAMaxDraws 2 (Sys.init 2)
        (fun i => RandA.proc ((⟨false, .FM64⟩ : RuntimeConfig).ctx 2 i) [1]) = .done z s' ∧
      signedVal (reconstruct .FM64 z 0) = 2 ^ 63 - 2 ∧
      ¬(-2 ^ (64 - 2) ≤ signedVal (reconstruct .FM64 z 0) ∧
        signedVal (reconstruct .FM64 z 0) < 2 ^ (64 - 2)) := by
  obtain ⟨z, hz, -, hrec⟩ := RandA_reconstruct randAMaxDraws (Sys.init 2) ⟨false, .FM64⟩ [1] 0
  have hval : signedVal (reconstruct .FM64 z 0) = 2 ^ 63 - 2 := by
    rw [hrec, Fin.sum_univ_two, ← Nat.cast_add, signedVal_natCast (by simp [randAMaxDraws])]
    simp [randAMaxDraws, toSigned, FieldType.width, FieldType.sizeOf]
  exact ⟨z, _, hz, hval, by rw [hval]; norm_num⟩

/-- `P2A` shares a public value: a PRSS zero sharing, plus the value on rank 0, in arrays
of no identity. -/
theorem P2A_reconstruct (hW : PrssCorrelated W s.draws) (p : NdArrayRef) (fuel : ℕ) :
    ∃ z, run W (fuel + 2) s (fun i => P2A.proc (cfg.ctx N i) p) =
        .done z { s with draws := s.draws + 1 } ∧
      (∀ i, (z i).eltype = AShrTy p.eltype.field ∧ (z i).shape = p.shape ∧ (z i).buf = none) ∧
      ∀ idx, reconstruct p.eltype.field z idx = p.data idx := by
  simp only [P2A.proc, genPrssPair, Prog.bind_eq, Prog.req_bind]
  rw [run_req W (fuel + 1) s _ _ _ _ (respond_genPrssPair W s p.eltype.field p.shape) fun _ => rfl]
  simp
  refine ⟨_, run_pure W fuel _ _, fun i => by split_ifs <;> simp [add, sub], fun idx => ?_⟩
  simp only [reconstruct, ite_data, ite_apply, retype_data, Nat.cast_ite, add_data_cast,
    sub_data_cast, retype_eltype, AShrTy_field, ofFun_eltype, RingTy_field, ofFun_data,
    ZMod.natCast_mod]
  rw [sum_ite_add_rank 0 (NeZero.pos N)]
  simp [Finset.sum_sub_distrib, prss_telescope hW]

/-- `V2A` shares a private value: a PRSS zero sharing, plus the value on its owner. -/
theorem V2A_reconstruct (hW : PrssCorrelated W s.draws) (f : FieldType) (r : ℕ) (hr : r < N)
    (sh : Shape) (v : Fin N → NdArrayRef) (hv : ∀ i, (v i).eltype = Priv2kTy f r)
    (hvs : ∀ i, (v i).shape = sh) (fuel : ℕ) :
    ∃ z, run W (fuel + 2) s (fun i => V2A.proc (cfg.ctx N i) (v i)) =
        .done z { s with draws := s.draws + 1 } ∧
      (∀ i, (z i).eltype = AShrTy f ∧ (z i).shape = sh) ∧
      ∀ idx, reconstruct f z idx = (v ⟨r, hr⟩).data idx := by
  simp only [V2A.proc, privOwner, hv, hvs, Priv2kTy_owner?, Priv2kTy_field, genPrssPair,
    Prog.bind_eq, Prog.pure_bind, Prog.req_bind]
  rw [run_req W (fuel + 1) s _ _ _ _ (respond_genPrssPair W s f sh) fun _ => rfl]
  simp [hv, hvs]
  refine ⟨_, run_pure W fuel _ _, fun i => by split_ifs <;> simp [hvs], fun idx => ?_⟩
  simp only [reconstruct, ite_data, ite_apply, retype_data, Nat.cast_ite, add_data_cast,
    sub_data_cast, retype_eltype, AShrTy_field, ofFun_eltype, RingTy_field, ofFun_data,
    ZMod.natCast_mod]
  rw [sum_ite_add_rank r hr]
  simp [Finset.sum_sub_distrib, prss_telescope hW]

/-- `A2P` opens a sharing: every rank gets the value it encodes. -/
theorem A2P_open (f : FieldType) (x : Fin N → NdArrayRef) (hx : ∀ i, (x i).eltype.field = f)
    (fuel : ℕ) :
    ∃ out, run W (fuel + 2) s (fun i => A2P.proc (cfg.ctx N i) (x i)) =
        .done out { s with trace := s.trace ++ [.allReduce x] } ∧
      ∀ i, (out i).eltype = Pub2kTy f ∧ (out i).shape = (x i).shape ∧
        ∀ idx, ((out i).data idx : ZMod (2 ^ f.width)) = reconstruct f x idx := by
  simp only [A2P.proc, allReduce, Prog.bind_eq, Prog.req_bind]
  rw [run_req W (fuel + 1) s _ _ _ _ (respond_allReduce W s x) fun _ => rfl]
  simp
  refine ⟨_, run_pure W fuel _ _, fun i => ⟨by simp [hx], rfl, fun idx => ?_⟩⟩
  simp [reconstruct, hx]

/-- `A2V` reveals a sharing to `r`; the other ranks hold the zero placeholder. -/
theorem A2V_reveal (f : FieldType) (r : ℕ) (sh : Shape) (x : Fin N → NdArrayRef)
    (hx : ∀ i, (x i).eltype = AShrTy f) (hxs : ∀ i, (x i).shape = sh) (fuel : ℕ) :
    ∃ out, run W (fuel + 2) s (fun i => A2V.proc (cfg.ctx N i) (x i) r) =
        .done out { s with trace := s.trace ++
          [.gather r fun i => (List.range sh.prod).map (x i).data] } ∧
      ∀ i, (out i).eltype = Priv2kTy f r ∧ (out i).shape = sh ∧
        ∀ idx < sh.prod, ((out i).data idx : ZMod (2 ^ f.width)) =
          if (i : ℕ) = r then reconstruct f x idx else 0 := by
  simp only [A2V.proc, aShrField, hx, hxs, numel, gather, AShrTy, if_true, Prog.bind_eq,
    Prog.pure_bind, Prog.req_bind]
  rw [run_req W (fuel + 1) s _ _ _ _ (respond_gather W s _ r) fun _ => rfl]
  let shares := List.ofFn fun j => (List.range sh.prod).map (x j).data
  refine ⟨fun i => if (i : ℕ) = r then
      ofFun (Priv2kTy f r) sh fun idx => (shares.map fun l => l.getD idx 0).sum
    else constant (Priv2kTy f r) sh, run_of_pure W fuel _ _ _ fun i => ?_, fun i => ?_⟩
  · by_cases h : (i : ℕ) = r <;> simp [h, shares]
  · by_cases h : (i : ℕ) = r
    · refine ⟨by simp [h], by simp [h], fun idx hidx => ?_⟩
      simp [h, shares, reconstruct, List.sum_ofFn, hidx, hx]
    · simp [h, constant]

/-! ## Local kernels -/

/-- `NegateA` negates the shared value. -/
theorem NegateA_reconstruct (f : FieldType) (x : Fin N → NdArrayRef)
    (hx : ∀ i, (x i).eltype.field = f) (fuel : ℕ) :
    ∃ z, run W (fuel + 1) s (fun i => NegateA.proc (cfg.ctx N i) (x i)) = .done z s ∧
      ∀ idx, reconstruct f z idx = -reconstruct f x idx := by
  refine ⟨fun i => (x i).neg.retype (x i).eltype rfl,
    run_of_pure W fuel _ _ _ fun i => by simp [NegateA.proc], fun idx => ?_⟩
  simp [reconstruct, neg_data_cast _ _ (hx _)]

/-- `AddAA` adds the shared values. -/
theorem AddAA_reconstruct (t : Ty) (sh : Shape) (x y : Fin N → NdArrayRef)
    (hx : ∀ i, (x i).eltype = t) (hy : ∀ i, (y i).eltype = t) (hxs : ∀ i, (x i).shape = sh)
    (hys : ∀ i, (y i).shape = sh) (fuel : ℕ) :
    ∃ z, run W (fuel + 1) s (fun i => AddAA.proc (cfg.ctx N i) (x i) (y i)) = .done z s ∧
      ∀ idx, reconstruct t.field z idx = reconstruct t.field x idx + reconstruct t.field y idx := by
  refine ⟨fun i => ((x i).add (y i)).retype (x i).eltype rfl,
    run_of_pure W fuel _ _ _ fun i => by simp [AddAA.proc, numel, hx, hy, hxs, hys], fun idx => ?_⟩
  simp [reconstruct, add_data_cast _ _ _ (congrArg Ty.field (hx _)), Finset.sum_add_distrib]

/-- `AddAP` adds a public value, on rank 0 only. -/
theorem AddAP_reconstruct (f : FieldType) (sh : Shape) (x : Fin N → NdArrayRef) (p : NdArrayRef)
    (hx : ∀ i, (x i).eltype.field = f) (hp : p.eltype.field = f) (hxs : ∀ i, (x i).shape = sh)
    (hps : p.shape = sh) (fuel : ℕ) :
    ∃ z, run W (fuel + 1) s (fun i => AddAP.proc (cfg.ctx N i) (x i) p) = .done z s ∧
      ∀ idx, reconstruct f z idx = reconstruct f x idx + p.data idx := by
  refine ⟨fun i => if (i : ℕ) = 0 then ((x i).add p).retype (x i).eltype rfl else x i,
    run_of_pure W fuel _ _ _ fun i => ?_, fun idx => ?_⟩
  · by_cases h : (i : ℕ) = 0 <;> simp [AddAP.proc, numel, h, hx, hp, hxs, hps]
  · simp only [reconstruct, ite_data, ite_apply, retype_data, Nat.cast_ite,
      add_data_cast _ _ _ (hx _)]
    rw [sum_ite_add_rank 0 (NeZero.pos N)]

/-- `MulAP` multiplies the shared value by a public one. -/
theorem MulAP_reconstruct (f : FieldType) (sh : Shape) (x : Fin N → NdArrayRef) (p : NdArrayRef)
    (hx : ∀ i, (x i).eltype.field = f) (hp : p.eltype.field = f) (hxs : ∀ i, (x i).shape = sh)
    (hps : p.shape = sh) (fuel : ℕ) :
    ∃ z, run W (fuel + 1) s (fun i => MulAP.proc (cfg.ctx N i) (x i) p) = .done z s ∧
      ∀ idx, reconstruct f z idx = reconstruct f x idx * p.data idx := by
  refine ⟨fun i => ((x i).mul p).retype (x i).eltype rfl,
    run_of_pure W fuel _ _ _ fun i => by simp [MulAP.proc, hx, hp, hxs, hps], fun idx => ?_⟩
  simp [reconstruct, mul_data_cast _ _ _ (hx _), Finset.sum_mul]

/-- `LShiftA` multiplies the shared value by `2 ^ bits`. -/
theorem LShiftA_reconstruct (f : FieldType) (x : Fin N → NdArrayRef) (bits : List ℕ)
    (hx : ∀ i, (x i).eltype.field = f) (fuel : ℕ) :
    ∃ z, run W (fuel + 1) s (fun i => LShiftA.proc (cfg.ctx N i) (x i) bits) = .done z s ∧
      ∀ idx, reconstruct f z idx = reconstruct f x idx * 2 ^ shiftAt bits idx := by
  refine ⟨fun i => ((x i).lshift bits).retype (x i).eltype rfl,
    run_of_pure W fuel _ _ _ fun i => by simp [LShiftA.proc], fun idx => ?_⟩
  simp [reconstruct, lshift_data_cast _ _ _ (hx _), Finset.sum_mul]

/-- `MatMulAP` multiplies the shared `m × n` matrix by a public `n × q` one. -/
theorem MatMulAP_reconstruct (f : FieldType) (m n q : ℕ) (x : Fin N → NdArrayRef)
    (P : NdArrayRef) (hx : ∀ i, (x i).eltype.field = f) (hP : P.eltype.field = f)
    (hxs : ∀ i, (x i).shape = [m, n]) (hPs : P.shape = [n, q]) (fuel : ℕ) :
    ∃ z, run W (fuel + 1) s (fun i => MatMulAP.proc (cfg.ctx N i) (x i) P) = .done z s ∧
      (∀ i, (z i).shape = [m, q]) ∧
      ∀ a c, c < q → reconstruct f z (a * q + c) =
        ∑ l ∈ Finset.range n, reconstruct f x (a * n + l) * P.data (l * q + c) := by
  refine ⟨fun i => ((x i).mmul P).retype (x i).eltype rfl,
    run_of_pure W fuel _ _ _ fun i => by
      simp [MatMulAP.proc, ringMmul_ok (hx i ▸ hP.symm) (hxs i) hPs],
    fun i => by simp [hxs, hPs], fun a c hc => ?_⟩
  simp only [reconstruct, retype_data, mmul_data_cast _ _ (hx _) (hxs _) hPs hc, Finset.sum_mul]
  exact Finset.sum_comm

/-! ## Round trips -/

/-- Sharing a public value and opening it gives the value back on every rank. -/
theorem A2P_P2A (hW : PrssCorrelated W s.draws) (p : NdArrayRef) (fuel : ℕ) :
    ∃ z s₁, run W (fuel + 2) s (fun i => P2A.proc (cfg.ctx N i) p) = .done z s₁ ∧
      ∃ out s₂, run W (fuel + 2) s₁ (fun i => A2P.proc (cfg.ctx N i) (z i)) = .done out s₂ ∧
        ∀ i idx, (out i).data idx = p.data idx := by
  obtain ⟨z, hz, hzt, hzr⟩ := P2A_reconstruct W s cfg hW p fuel
  obtain ⟨out, hout, ho⟩ := A2P_open W _ cfg p.eltype.field z
    (fun i => by rw [(hzt i).1]; rfl) fuel
  refine ⟨z, _, hz, out, _, hout, fun i idx => ?_⟩
  refine eq_of_natCast_eq (data_lt_of_field (by simp [(ho i).1]) idx) (p.data_lt idx) ?_
  rw [(ho i).2.2, hzr]

/-- Revealing a sharing to `r`, sharing it again and opening it gives what opening the
sharing gives. -/
theorem A2P_V2A_A2V (hW : ∀ n, PrssCorrelated W n) (f : FieldType) (r : ℕ) (hr : r < N)
    (sh : Shape) (x : Fin N → NdArrayRef) (hx : ∀ i, (x i).eltype = AShrTy f)
    (hxs : ∀ i, (x i).shape = sh) (fuel : ℕ) :
    ∃ u s₁, run W (fuel + 2) s (fun i => A2V.proc (cfg.ctx N i) (x i) r) = .done u s₁ ∧
      ∃ v s₂, run W (fuel + 2) s₁ (fun i => V2A.proc (cfg.ctx N i) (u i)) = .done v s₂ ∧
        ∃ out s₃, run W (fuel + 2) s₂ (fun i => A2P.proc (cfg.ctx N i) (v i)) = .done out s₃ ∧
          ∃ out' s', run W (fuel + 2) s (fun i => A2P.proc (cfg.ctx N i) (x i)) =
              .done out' s' ∧
            ∀ i, ∀ idx < sh.prod, (out i).data idx = (out' i).data idx := by
  obtain ⟨u, hu, hut⟩ := A2V_reveal W s cfg f r sh x hx hxs fuel
  obtain ⟨v, hv, hvt, hvr⟩ := V2A_reconstruct W _ cfg (hW _) f r hr sh u (fun i => (hut i).1)
    (fun i => (hut i).2.1) fuel
  obtain ⟨out, hout, ho⟩ := A2P_open W _ cfg f v (fun i => by rw [(hvt i).1]; rfl) fuel
  obtain ⟨out', hout', ho'⟩ := A2P_open W s cfg f x (fun i => by rw [hx i]; rfl) fuel
  refine ⟨u, _, hu, v, _, hv, out, _, hout, out', _, hout', fun i idx hidx => ?_⟩
  have h₁ : (out i).data idx < 2 ^ f.width := data_lt_of_field (by simp [(ho i).1]) idx
  have h₂ : (out' i).data idx < 2 ^ f.width := data_lt_of_field (by simp [(ho' i).1]) idx
  refine eq_of_natCast_eq h₁ h₂ ?_
  rw [(ho i).2.2, (ho' i).2.2, hvr, ((hut ⟨r, hr⟩).2.2 idx hidx), if_pos rfl]

/-! ## The conversion laws together -/

/-- What the conversion and local kernels do to shared values, run from `s` with `fuel` to
spare: `P2A` and `V2A` share a public or private value, `A2P` opens a sharing on every rank
and `A2V` on its target rank, `NegateA`, `AddAA`, `AddAP`, `MulAP`, `MatMulAP` and `LShiftA`
act on the shared value as negation, sum, product, matrix product and shift, and the round
trips `A2P ∘ P2A` and `A2P ∘ V2A ∘ A2V` give back what they started from. -/
def ConversionLaws (W : World N) (s : Sys N) (cfg : RuntimeConfig) (fuel : ℕ) : Prop :=
  (∀ p : NdArrayRef, ∃ z s', run W (fuel + 2) s (fun i => P2A.proc (cfg.ctx N i) p) = .done z s' ∧
    ∀ idx, reconstruct p.eltype.field z idx = p.data idx) ∧
  (∀ f r (hr : r < N) sh (v : Fin N → NdArrayRef), (∀ i, (v i).eltype = Priv2kTy f r) →
    (∀ i, (v i).shape = sh) →
    ∃ z s', run W (fuel + 2) s (fun i => V2A.proc (cfg.ctx N i) (v i)) = .done z s' ∧
      ∀ idx, reconstruct f z idx = (v ⟨r, hr⟩).data idx) ∧
  (∀ f (x : Fin N → NdArrayRef), (∀ i, (x i).eltype.field = f) →
    ∃ out s', run W (fuel + 2) s (fun i => A2P.proc (cfg.ctx N i) (x i)) = .done out s' ∧
      ∀ i idx, ((out i).data idx : ZMod (2 ^ f.width)) = reconstruct f x idx) ∧
  (∀ f r (hr : r < N) sh (x : Fin N → NdArrayRef), (∀ i, (x i).eltype = AShrTy f) →
    (∀ i, (x i).shape = sh) →
    ∃ out s', run W (fuel + 2) s (fun i => A2V.proc (cfg.ctx N i) (x i) r) = .done out s' ∧
      ∀ idx < sh.prod, ((out ⟨r, hr⟩).data idx : ZMod (2 ^ f.width)) = reconstruct f x idx) ∧
  (∀ f (x : Fin N → NdArrayRef), (∀ i, (x i).eltype.field = f) →
    ∃ z s', run W (fuel + 1) s (fun i => NegateA.proc (cfg.ctx N i) (x i)) = .done z s' ∧
      ∀ idx, reconstruct f z idx = -reconstruct f x idx) ∧
  (∀ t sh (x y : Fin N → NdArrayRef), (∀ i, (x i).eltype = t) → (∀ i, (y i).eltype = t) →
    (∀ i, (x i).shape = sh) → (∀ i, (y i).shape = sh) →
    ∃ z s', run W (fuel + 1) s (fun i => AddAA.proc (cfg.ctx N i) (x i) (y i)) = .done z s' ∧
      ∀ idx, reconstruct t.field z idx = reconstruct t.field x idx + reconstruct t.field y idx) ∧
  (∀ f sh (x : Fin N → NdArrayRef) (p : NdArrayRef), (∀ i, (x i).eltype.field = f) →
    p.eltype.field = f → (∀ i, (x i).shape = sh) → p.shape = sh →
    ∃ z s', run W (fuel + 1) s (fun i => AddAP.proc (cfg.ctx N i) (x i) p) = .done z s' ∧
      ∀ idx, reconstruct f z idx = reconstruct f x idx + p.data idx) ∧
  (∀ f sh (x : Fin N → NdArrayRef) (p : NdArrayRef), (∀ i, (x i).eltype.field = f) →
    p.eltype.field = f → (∀ i, (x i).shape = sh) → p.shape = sh →
    ∃ z s', run W (fuel + 1) s (fun i => MulAP.proc (cfg.ctx N i) (x i) p) = .done z s' ∧
      ∀ idx, reconstruct f z idx = reconstruct f x idx * p.data idx) ∧
  (∀ f m n q (x : Fin N → NdArrayRef) (P : NdArrayRef), (∀ i, (x i).eltype.field = f) →
    P.eltype.field = f → (∀ i, (x i).shape = [m, n]) → P.shape = [n, q] →
    ∃ z s', run W (fuel + 1) s (fun i => MatMulAP.proc (cfg.ctx N i) (x i) P) = .done z s' ∧
      ∀ a c, c < q → reconstruct f z (a * q + c) =
        ∑ l ∈ Finset.range n, reconstruct f x (a * n + l) * P.data (l * q + c)) ∧
  (∀ f (x : Fin N → NdArrayRef) bits, (∀ i, (x i).eltype.field = f) →
    ∃ z s', run W (fuel + 1) s (fun i => LShiftA.proc (cfg.ctx N i) (x i) bits) = .done z s' ∧
      ∀ idx, reconstruct f z idx = reconstruct f x idx * 2 ^ shiftAt bits idx) ∧
  (∀ p : NdArrayRef, ∃ z s₁, run W (fuel + 2) s (fun i => P2A.proc (cfg.ctx N i) p) = .done z s₁ ∧
    ∃ out s₂, run W (fuel + 2) s₁ (fun i => A2P.proc (cfg.ctx N i) (z i)) = .done out s₂ ∧
      ∀ i idx, (out i).data idx = p.data idx) ∧
  (∀ f r (_ : r < N) sh (x : Fin N → NdArrayRef), (∀ i, (x i).eltype = AShrTy f) →
    (∀ i, (x i).shape = sh) →
    ∃ u s₁, run W (fuel + 2) s (fun i => A2V.proc (cfg.ctx N i) (x i) r) = .done u s₁ ∧
      ∃ v s₂, run W (fuel + 2) s₁ (fun i => V2A.proc (cfg.ctx N i) (u i)) = .done v s₂ ∧
        ∃ out s₃, run W (fuel + 2) s₂ (fun i => A2P.proc (cfg.ctx N i) (v i)) = .done out s₃ ∧
          ∃ out' s', run W (fuel + 2) s (fun i => A2P.proc (cfg.ctx N i) (x i)) =
              .done out' s' ∧
            ∀ i, ∀ idx < sh.prod, (out i).data idx = (out' i).data idx)

theorem conversion_kernels_commute_with_reconstruction (hW : ∀ n, PrssCorrelated W n)
    (fuel : ℕ) : ConversionLaws W s cfg fuel := by
  refine ⟨fun p => ?_, fun f r hr sh v hv hvs => ?_, fun f x hx => ?_,
    fun f r hr sh x hx hxs => ?_, fun f x hx => ?_, fun t sh x y hx hy hxs hys => ?_,
    fun f sh x p hx hp hxs hps => ?_, fun f sh x p hx hp hxs hps => ?_,
    fun f m n q x P hx hP hxs hPs => ?_, fun f x bits hx => ?_,
    fun p => A2P_P2A W s cfg (hW _) p fuel,
    fun f r hr sh x hx hxs => A2P_V2A_A2V W s cfg hW f r hr sh x hx hxs fuel⟩
  · obtain ⟨z, hz, -, hr⟩ := P2A_reconstruct W s cfg (hW _) p fuel
    exact ⟨z, _, hz, hr⟩
  · obtain ⟨z, hz, -, hr⟩ := V2A_reconstruct W s cfg (hW _) f r hr sh v hv hvs fuel
    exact ⟨z, _, hz, hr⟩
  · obtain ⟨out, hout, ho⟩ := A2P_open W s cfg f x hx fuel
    exact ⟨out, _, hout, fun i => (ho i).2.2⟩
  · obtain ⟨out, hout, ho⟩ := A2V_reveal W s cfg f r sh x hx hxs fuel
    exact ⟨out, _, hout, fun idx hidx => by rw [(ho _).2.2 idx hidx, if_pos rfl]⟩
  · obtain ⟨z, hz, h⟩ := NegateA_reconstruct W s cfg f x hx fuel
    exact ⟨z, _, hz, h⟩
  · obtain ⟨z, hz, h⟩ := AddAA_reconstruct W s cfg t sh x y hx hy hxs hys fuel
    exact ⟨z, _, hz, h⟩
  · obtain ⟨z, hz, h⟩ := AddAP_reconstruct W s cfg f sh x p hx hp hxs hps fuel
    exact ⟨z, _, hz, h⟩
  · obtain ⟨z, hz, h⟩ := MulAP_reconstruct W s cfg f sh x p hx hp hxs hps fuel
    exact ⟨z, _, hz, h⟩
  · obtain ⟨z, hz, -, h⟩ := MatMulAP_reconstruct W s cfg f m n q x P hx hP hxs hPs fuel
    exact ⟨z, _, hz, h⟩
  · obtain ⟨z, hz, h⟩ := LShiftA_reconstruct W s cfg f x bits hx fuel
    exact ⟨z, _, hz, h⟩

theorem conversion_laws_two_parties :
    (∀ n, PrssCorrelated (World.replaying 2) n) ∧
      ConversionLaws (World.replaying 2) (Sys.init 2) ⟨false, .FM64⟩ 0 :=
  ⟨prssCorrelated_replaying, conversion_kernels_commute_with_reconstruction _ _ _
    prssCorrelated_replaying 0⟩

end Semi2k
