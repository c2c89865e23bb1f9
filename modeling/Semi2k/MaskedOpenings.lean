import Semi2k.Privacy
import Semi2k.Products

/-!
# What the Beaver kernels put on the wire

`MulAA`, `MatMulAA`, `MulA1B` and `SquareA` send nothing but the openings of `x - a` (and of
`y - b`) that the replay cache does not hold: one all-reduce for each operand that misses,
or one batched all-reduce when both miss and vectorization is on.  This module computes
those messages for every hit-or-miss case and shows that two sharings which agree on party
`j` send the same ones once the masks of the draw are moved by what the inputs differ by.
-/

namespace Semi2k

open NdArrayRef

variable {N : ℕ}

/-- Arrays of the same buffers and shapes look up the same cache entries. -/
theorem BeaverCache.getCache_congr (c : BeaverCache) {u u' : NdArrayRef} (h : u'.buf = u.buf)
    (mmul : Bool) : c.getCache u' mmul = c.getCache u mmul := by
  simp only [BeaverCache.getCache, h]

theorem openDescs_congr (s : Sys N) {x y x' y' : Fin N → NdArrayRef} (mmul : Bool)
    (hx : ∀ i, (x' i).buf = (x i).buf ∧ (x' i).shape = (x i).shape)
    (hy : ∀ i, (y' i).buf = (y i).buf ∧ (y' i).shape = (y i).shape) :
    openDescs s x' y' mmul = openDescs s x y mmul := by
  simp only [openDescs, openEntries, aliasGuard, beq_def,
    BeaverCache.getCache_congr _ (hx _).1, BeaverCache.getCache_congr _ (hy _).1,
    (hx _).1, (hx _).2, (hy _).1, (hy _).2]

/-- The openings of two runs are the same messages when every opening that is sent has the
same value in both. -/
theorem openMsgs_congr (seq : Bool) (mx my : Prop) [Decidable mx] [Decidable my]
    {x y a b x' y' a' b' : Fin N → NdArrayRef}
    (hx : mx → ∀ i, (x i).sub (a i) = (x' i).sub (a' i))
    (hy : my → ∀ i, (y i).sub (b i) = (y' i).sub (b' i)) :
    openMsgs seq mx my x y a b = openMsgs seq mx my x' y' a' b' := by
  unfold openMsgs
  split_ifs with h hmx hmy hmy <;> simp_all

variable [NeZero N] (W : World N)

theorem silent_storeOpen (x : NdArrayRef) (mmul : Bool) (c : Cache) (o : NdArrayRef) :
    (storeOpen x mmul c o).Silent := by
  unfold storeOpen
  split_ifs
  exacts [⟨rfl, fun _ => trivial⟩, trivial]

/-- A store puts nothing on the wire. -/
@[simp] theorem silent_storeOpen_bind {β : Type} (x : NdArrayRef) (mmul : Bool) (c : Cache)
    (o : NdArrayRef) (k : Unit → Prog β) :
    ((storeOpen x mmul c o).bind k).Silent ↔ (k ()).Silent := by
  unfold storeOpen
  split_ifs
  · simp only [setCache, Prog.req_bind, Prog.Silent, Prog.pure_bind]
    exact ⟨fun h => h.2 .unit, fun h => ⟨rfl, fun _ => h⟩⟩
  · simp only [Prog.pure_eq, Prog.pure_bind]

/-- `MulOpen` for an elementwise product, followed by code that sends nothing: the openings
of the operands that miss the cache, against the masks of the triple it draws. -/
theorem run_MulOpen_trace (cfg : RuntimeConfig) (s : Sys N) (f : FieldType) (sh : Shape)
    (x y : Fin N → NdArrayRef) (hx : ∀ i, (x i).eltype.field = f)
    (hy : ∀ i, (y i).eltype.field = f) (hxs : ∀ i, (x i).shape = sh)
    (hys : ∀ i, (y i).shape = sh) (mx my : Prop) [Decidable mx] [Decidable my]
    (hsx : ∀ i, ((s.cache i).getCache (x i) false).replay_desc.status = .Init ↔ mx)
    (hsy : ∀ i, ((s.cache i).getCache (y i) false).replay_desc.status = .Init ↔ my) {β : Type}
    (k : Fin N → NdArrayRef × NdArrayRef × NdArrayRef × NdArrayRef × NdArrayRef → Prog β)
    (hk : ∀ i v, (k i v).Silent) (fuel : ℕ) :
    (run W (fuel + 5) s (fun i => (MulOpen (cfg.ctx N i) (x i) (y i) false).bind (k i))).trace =
      s.trace ++ openMsgs cfg.experimental_disable_vectorization mx my x y
        (fun i => ofFun (x i).eltype (x i).shape
          (W.mul s.draws (openDescs s x y false).1 (openDescs s x y false).2 i).1)
        (fun i => ofFun (y i).eltype (y i).shape
          (W.mul s.draws (openDescs s x y false).1 (openDescs s x y false).2 i).2.1) := by
  obtain ⟨X, Y, m, -, hrun⟩ := run_MulOpen W cfg s f sh x y hx hy hxs hys mx my hsx hsy
  rw [hrun k fuel, run_trace_of_silent _ _ _ _ fun i => (silent_storeOpen _ _ _ _).bind
    fun _ => (silent_storeOpen _ _ _ _).bind fun _ => hk i _]
  simp only [hxs, hys]
  rfl

/-- `MulOpen` for a matrix product, followed by code that sends nothing: the openings of the
operands that miss the cache, against the masks of the dot triple it draws. -/
theorem run_MulOpen_trace_dot (cfg : RuntimeConfig) (s : Sys N) (f : FieldType) (m n p : ℕ)
    (x y : Fin N → NdArrayRef) (hx : ∀ i, (x i).eltype.field = f)
    (hy : ∀ i, (y i).eltype.field = f) (hxs : ∀ i, (x i).shape = [m, n])
    (hys : ∀ i, (y i).shape = [n, p]) (mx my : Prop) [Decidable mx] [Decidable my]
    (hsx : ∀ i, ((s.cache i).getCache (x i) true).replay_desc.status = .Init ↔ mx)
    (hsy : ∀ i, ((s.cache i).getCache (y i) true).replay_desc.status = .Init ↔ my) {β : Type}
    (k : Fin N → NdArrayRef × NdArrayRef × NdArrayRef × NdArrayRef × NdArrayRef → Prog β)
    (hk : ∀ i v, (k i v).Silent) (fuel : ℕ) :
    (run W (fuel + 5) s (fun i => (MulOpen (cfg.ctx N i) (x i) (y i) true).bind (k i))).trace =
      s.trace ++ openMsgs cfg.experimental_disable_vectorization mx my x y
        (fun i => ofFun (x i).eltype [m, n]
          (W.dot s.draws (fun _ => (m, p, n)) (openDescs s x y true).1 (openDescs s x y true).2
            i).1)
        (fun i => ofFun (y i).eltype [n, p]
          (W.dot s.draws (fun _ => (m, p, n)) (openDescs s x y true).1 (openDescs s x y true).2
            i).2.1) := by
  obtain ⟨X, Y, r, -, hrun⟩ := run_MulOpen_dot W cfg s f m n p x y hx hy hxs hys mx my hsx hsy
  rw [dotDraw_of_shapes W s hxs hys] at hrun
  rw [hrun k fuel, run_trace_of_silent _ _ _ _ fun i => (silent_storeOpen _ _ _ _).bind
    fun _ => (silent_storeOpen _ _ _ _).bind fun _ => hk i _]

/-! ## Two runs against the same caches -/

/-- Every party's cache holds an opening of `x` for the multiplication kind `mmul`, or none
does: the state a run of the kernels keeps its caches in. -/
def Synced (s : Sys N) (x : Fin N → NdArrayRef) (mmul : Bool) : Prop :=
  ∀ i, ((s.cache i).getCache (x i) mmul).replay_desc.status = .Init ↔
    ((s.cache 0).getCache (x 0) mmul).replay_desc.status = .Init


/-! ## `MulAA` -/

/-- `MulAA` sends the openings of `MulOpen` and nothing else. -/
theorem run_MulAA_trace (cfg : RuntimeConfig) (s : Sys N) (f : FieldType) (sh : Shape)
    (x y : Fin N → NdArrayRef) (hx : ∀ i, (x i).eltype.field = f)
    (hy : ∀ i, (y i).eltype.field = f) (hxs : ∀ i, (x i).shape = sh)
    (hys : ∀ i, (y i).shape = sh) (mx my : Prop) [Decidable mx] [Decidable my]
    (hsx : ∀ i, ((s.cache i).getCache (x i) false).replay_desc.status = .Init ↔ mx)
    (hsy : ∀ i, ((s.cache i).getCache (y i) false).replay_desc.status = .Init ↔ my)
    (fuel : ℕ) :
    (run W (fuel + 5) s (fun i => MulAA.proc (cfg.ctx N i) (x i) (y i))).trace =
      s.trace ++ openMsgs cfg.experimental_disable_vectorization mx my x y
        (fun i => ofFun (x i).eltype (x i).shape
          (W.mul s.draws (openDescs s x y false).1 (openDescs s x y false).2 i).1)
        (fun i => ofFun (y i).eltype (y i).shape
          (W.mul s.draws (openDescs s x y false).1 (openDescs s x y false).2 i).2.1) := by
  simp only [MulAA.proc, Prog.bind_eq]
  exact run_MulOpen_trace W cfg s f sh x y hx hy hxs hys mx my hsx hsy _
    (fun i v => by rcases v with ⟨_, _, _, _, _⟩; simp) fuel

/-- `MulAA` shows party `j` nothing of the secrets: two sharings that agree on party `j`, of
arrays with the same buffers, send the same messages once the masks `a` and `b` of the
triple are moved by what the inputs differ by (for an operand whose opening is sent), party
`k` absorbing the change of the product into its `c`. -/
theorem MulAA_private (cfg : RuntimeConfig) (s : Sys N) {j k : Fin N} (hk : k ≠ j)
    (f : FieldType) (sh : Shape) (x y x' y' : Fin N → NdArrayRef)
    (hx : ∀ i, (x i).eltype.field = f) (hy : ∀ i, (y i).eltype.field = f)
    (hxs : ∀ i, (x i).shape = sh) (hys : ∀ i, (y i).shape = sh)
    (hx' : ∀ i, (x' i).eltype = (x i).eltype ∧ (x' i).shape = (x i).shape ∧
      (x' i).buf = (x i).buf)
    (hy' : ∀ i, (y' i).eltype = (y i).eltype ∧ (y' i).shape = (y i).shape ∧
      (y' i).buf = (y i).buf)
    (hj : x' j = x j ∧ y' j = y j) (hsx : Synced s x false) (hsy : Synced s y false)
    (numel : ℕ) :
    ∃ σ : ShareBijection ((ℕ → ℕ) × (ℕ → ℕ) × (ℕ → ℕ)) j (MulTripleAt f numel),
      ∀ W fuel,
      (run W (fuel + 5) s (fun i => MulAA.proc (cfg.ctx N i) (x i) (y i))).trace =
        (run (W.moveMul s.draws σ.toEquiv) (fuel + 5) s
          (fun i => MulAA.proc (cfg.ctx N i) (x' i) (y' i))).trace := by
  let mx := ((s.cache 0).getCache (x 0) false).replay_desc.status = .Init
  let my := ((s.cache 0).getCache (y 0) false).replay_desc.status = .Init
  let da := fun i => if mx then inputShift f (x i) (x' i) else 0
  let db := fun i => if my then inputShift f (y i) (y' i) else 0
  refine ⟨mulMove hk f da db (by simp [da, hj.1]) (by simp [db, hj.2]) numel, fun W fuel => ?_⟩
  have hsx' : ∀ i, ((s.cache i).getCache (x' i) false).replay_desc.status = .Init ↔ mx :=
    fun i => by rw [BeaverCache.getCache_congr _ (hx' i).2.2]; exact hsx i
  have hsy' : ∀ i, ((s.cache i).getCache (y' i) false).replay_desc.status = .Init ↔ my :=
    fun i => by rw [BeaverCache.getCache_congr _ (hy' i).2.2]; exact hsy i
  rw [run_MulAA_trace W cfg s f sh x y hx hy hxs hys mx my hsx hsy,
    run_MulAA_trace _ cfg s f sh x' y' (fun i => (hx' i).1 ▸ hx i) (fun i => (hy' i).1 ▸ hy i)
      (fun i => (hx' i).2.1.trans (hxs i)) (fun i => (hy' i).2.1.trans (hys i)) mx my hsx' hsy',
    openDescs_congr s false (fun i => ⟨(hx' i).2.2, (hx' i).2.1⟩)
      (fun i => ⟨(hy' i).2.2, (hy' i).2.1⟩), World.moveMul_mul]
  congr 1
  refine openMsgs_congr _ _ _ (fun hm i => ?_) (fun hm i => ?_)
  · refine sub_eq_sub (hx' i).1 (hx i) (hx' i).2.1 fun idx => ?_
    simp only [ofFun_data_cast (hx i), ofFun_data_cast ((hx' i).1 ▸ hx i), mulMove, shear3,
      Equiv.coe_fn_mk, shiftArr_apply, shiftRes_cast, da, if_pos hm, inputShift, (hx' i).1,
      (hx' i).2.1]
    ring
  · refine sub_eq_sub (hy' i).1 (hy i) (hy' i).2.1 fun idx => ?_
    simp only [ofFun_data_cast (hy i), ofFun_data_cast ((hy' i).1 ▸ hy i), mulMove, shear3,
      Equiv.coe_fn_mk, shiftArr_apply, shiftRes_cast, db, if_pos hm, inputShift, (hy' i).1,
      (hy' i).2.1]
    ring

/-! ## `MatMulAA` -/

/-- `MatMulAA` sends the openings of `MulOpen` and nothing else. -/
theorem run_MatMulAA_trace (cfg : RuntimeConfig) (s : Sys N) (f : FieldType) (m n p : ℕ)
    (x y : Fin N → NdArrayRef) (hx : ∀ i, (x i).eltype.field = f)
    (hy : ∀ i, (y i).eltype.field = f) (hxs : ∀ i, (x i).shape = [m, n])
    (hys : ∀ i, (y i).shape = [n, p]) (mx my : Prop) [Decidable mx] [Decidable my]
    (hsx : ∀ i, ((s.cache i).getCache (x i) true).replay_desc.status = .Init ↔ mx)
    (hsy : ∀ i, ((s.cache i).getCache (y i) true).replay_desc.status = .Init ↔ my)
    (fuel : ℕ) :
    (run W (fuel + 5) s (fun i => MatMulAA.proc (cfg.ctx N i) (x i) (y i))).trace =
      s.trace ++ openMsgs cfg.experimental_disable_vectorization mx my x y
        (fun i => ofFun (x i).eltype [m, n]
          (W.dot s.draws (fun _ => (m, p, n)) (openDescs s x y true).1 (openDescs s x y true).2
            i).1)
        (fun i => ofFun (y i).eltype [n, p]
          (W.dot s.draws (fun _ => (m, p, n)) (openDescs s x y true).1 (openDescs s x y true).2
            i).2.1) := by
  simp only [MatMulAA.proc, Prog.bind_eq]
  exact run_MulOpen_trace_dot W cfg s f m n p x y hx hy hxs hys mx my hsx hsy _
    (fun i v => by rcases v with ⟨_, _, _, _, _⟩; simp) fuel

/-- `MatMulAA` shows party `j` nothing of the secrets: as for `MulAA`, with the masks of a
dot triple moved and party `k` absorbing the change of the matrix product. -/
theorem MatMulAA_private (cfg : RuntimeConfig) (s : Sys N) {j k : Fin N} (hk : k ≠ j)
    (f : FieldType) (m n p : ℕ) (x y x' y' : Fin N → NdArrayRef)
    (hx : ∀ i, (x i).eltype.field = f) (hy : ∀ i, (y i).eltype.field = f)
    (hxs : ∀ i, (x i).shape = [m, n]) (hys : ∀ i, (y i).shape = [n, p])
    (hx' : ∀ i, (x' i).eltype = (x i).eltype ∧ (x' i).shape = (x i).shape ∧
      (x' i).buf = (x i).buf)
    (hy' : ∀ i, (y' i).eltype = (y i).eltype ∧ (y' i).shape = (y i).shape ∧
      (y' i).buf = (y i).buf)
    (hj : x' j = x j ∧ y' j = y j) (hsx : Synced s x true) (hsy : Synced s y true) :
    ∃ σ : ShareBijection ((ℕ → ℕ) × (ℕ → ℕ) × (ℕ → ℕ)) j (DotTripleAt f m n p), ∀ W fuel,
      (run W (fuel + 5) s (fun i => MatMulAA.proc (cfg.ctx N i) (x i) (y i))).trace =
        (run (W.moveDot s.draws σ.toEquiv) (fuel + 5) s
          (fun i => MatMulAA.proc (cfg.ctx N i) (x' i) (y' i))).trace := by
  let mx := ((s.cache 0).getCache (x 0) true).replay_desc.status = .Init
  let my := ((s.cache 0).getCache (y 0) true).replay_desc.status = .Init
  let da := fun i => if mx then inputShift f (x i) (x' i) else 0
  let db := fun i => if my then inputShift f (y i) (y' i) else 0
  refine ⟨dotMove hk f da db (by simp [da, hj.1]) (by simp [db, hj.2]) m n p, fun W fuel => ?_⟩
  have hsx' : ∀ i, ((s.cache i).getCache (x' i) true).replay_desc.status = .Init ↔ mx :=
    fun i => by rw [BeaverCache.getCache_congr _ (hx' i).2.2]; exact hsx i
  have hsy' : ∀ i, ((s.cache i).getCache (y' i) true).replay_desc.status = .Init ↔ my :=
    fun i => by rw [BeaverCache.getCache_congr _ (hy' i).2.2]; exact hsy i
  rw [run_MatMulAA_trace W cfg s f m n p x y hx hy hxs hys mx my hsx hsy,
    run_MatMulAA_trace _ cfg s f m n p x' y' (fun i => (hx' i).1 ▸ hx i)
      (fun i => (hy' i).1 ▸ hy i) (fun i => (hx' i).2.1.trans (hxs i))
      (fun i => (hy' i).2.1.trans (hys i)) mx my hsx' hsy',
    openDescs_congr s true (fun i => ⟨(hx' i).2.2, (hx' i).2.1⟩)
      (fun i => ⟨(hy' i).2.2, (hy' i).2.1⟩), World.moveDot_dot]
  congr 1
  refine openMsgs_congr _ _ _ (fun hm i => ?_) (fun hm i => ?_)
  · refine sub_eq_sub (hx' i).1 (hx i) (hx' i).2.1 fun idx => ?_
    simp only [ofFun_data_cast (hx i), ofFun_data_cast ((hx' i).1 ▸ hx i), dotMove, shear3,
      Equiv.coe_fn_mk, shiftArr_apply, shiftRes_cast, da, if_pos hm, inputShift, (hx' i).1]
    ring
  · refine sub_eq_sub (hy' i).1 (hy i) (hy' i).2.1 fun idx => ?_
    simp only [ofFun_data_cast (hy i), ofFun_data_cast ((hy' i).1 ▸ hy i), dotMove, shear3,
      Equiv.coe_fn_mk, shiftArr_apply, shiftRes_cast, db, if_pos hm, inputShift, (hy' i).1]
    ring

/-! ## `MulA1B` -/

/-- `MulA1B` opens `xx - a` and `yy - b` for its fresh operands `xx = (1 - 2 yy) x` and
`yy = y & 1`, which no cache holds, and sends nothing else. -/
theorem run_MulA1B_trace (cfg : RuntimeConfig) (s : Sys N) (f : FieldType) (sh : Shape)
    (x y : Fin N → NdArrayRef) (hx : ∀ i, (x i).eltype.field = f)
    (hy : ∀ i, (y i).eltype.field = f) (hxs : ∀ i, (x i).shape = sh)
    (hys : ∀ i, (y i).shape = sh) (fuel : ℕ) :
    ∃ xx yy : Fin N → NdArrayRef, (∀ i, (xx i).eltype = RingTy f ∧ (xx i).shape = sh ∧
        (yy i).eltype = RingTy f ∧ (yy i).shape = sh ∧ ∀ idx,
          ((xx i).data idx : ZMod (2 ^ f.width)) =
            (1 - 2 * ((y i).data idx % 2 : ℕ)) * (x i).data idx ∧
          ((yy i).data idx : ZMod (2 ^ f.width)) = ((y i).data idx % 2 : ℕ)) ∧
      (run W (fuel + 5) s (fun i => MulA1B.proc (cfg.ctx N i) (x i) (y i))).trace =
        s.trace ++ openMsgs cfg.experimental_disable_vectorization True True xx yy
          (fun i => ofFun (RingTy f) sh (W.mul s.draws (fun _ => none) (fun _ => none) i).1)
          (fun i => ofFun (RingTy f) sh (W.mul s.draws (fun _ => none) (fun _ => none) i).2.1) := by
  let yy := fun i => ((y i).bitmask 0 1).retype (RingTy f) (by simp [hy])
  let xx := fun i => ((ringOnes f sh).sub ((yy i).lshift [1])).mul (x i)
  refine ⟨xx, yy, fun i => ⟨rfl, by simp [xx, ringOnes], rfl, by simp [yy, hys],
    fun idx => ⟨?_, ?_⟩⟩, ?_⟩
  · have h1 : (yy i).eltype.field = f := by simp [yy]
    simp only [xx, mul_data_cast _ _ _ (by simp [ringOnes] : ((ringOnes f sh).sub
      ((yy i).lshift [1])).eltype.field = f), sub_data_cast _ _ _ (by simp [ringOnes] :
      (ringOnes f sh).eltype.field = f), lshift_data_cast _ _ _ h1]
    simp [yy, hy, bitmask, ringOnes, shiftAt, mul_comm]
  · simp [yy, hy, bitmask]
  · simp only [MulA1B.proc, hx, hy, decide_True, enforce_true, RingTy_field, bitmask_eltype,
      as_eq, Prog.monadLift_eq, Prog.ofExcept_ok, ringOnes, hxs, RuntimeConfig.ctx_rank,
      Prog.bind_eq, Prog.pure_eq, Prog.pure_bind, ofFun_eltype, lshift_eltype, retype_eltype,
      ofFun_shape, lshift_shape, retype_shape, bitmask_shape, hys, ringSub_ok, ringMul_ok,
      sub_eltype, sub_shape, mul_eltype, mul_shape]
    have hnone : ∀ i, (xx i).buf = none ∧ (yy i).buf = none := fun i => ⟨rfl, rfl⟩
    have hdesc : openDescs s xx yy false = (fun _ => none, fun _ => none) := by
      simp [openDescs, openEntries, aliasGuard, BeaverCache.getCache_of_buf_none _ (hnone _).1,
        BeaverCache.getCache_of_buf_none _ (hnone _).2, Cache.desc?, BeaverCache.disabledEntry]
    refine (run_MulOpen_trace W cfg s f sh xx yy (fun i => rfl) (fun i => rfl)
      (fun i => by simp [xx, ringOnes]) (fun i => by simp [yy, hys]) True True
      (fun i => by rw [BeaverCache.getCache_of_buf_none _ (hnone i).1]; exact iff_of_true rfl ⟨⟩)
      (fun i => by rw [BeaverCache.getCache_of_buf_none _ (hnone i).2]; exact iff_of_true rfl ⟨⟩)
      _ ?_ fuel).trans ?_
    · intro i v
      rcases v with ⟨_, _, _, _, _⟩
      simp
    · rw [hdesc]
      rfl

/-- `MulA1B` on its uncached path shows party `j` nothing of the secrets: sharings that agree
on party `j` send the same openings once the masks are moved by what `xx` and `yy` differ by,
party `k` absorbing the change of the product into its `c`. -/
theorem MulA1B_private (cfg : RuntimeConfig) (s : Sys N) {j k : Fin N} (hk : k ≠ j)
    (f : FieldType) (sh : Shape) (x y x' y' : Fin N → NdArrayRef)
    (hx : ∀ i, (x i).eltype.field = f ∧ (x' i).eltype.field = f)
    (hy : ∀ i, (y i).eltype.field = f ∧ (y' i).eltype.field = f)
    (hxs : ∀ i, (x i).shape = sh ∧ (x' i).shape = sh)
    (hys : ∀ i, (y i).shape = sh ∧ (y' i).shape = sh) (hj : x' j = x j ∧ y' j = y j)
    (numel : ℕ) :
    ∃ σ : ShareBijection ((ℕ → ℕ) × (ℕ → ℕ) × (ℕ → ℕ)) j (MulTripleAt f numel),
      ∀ W fuel,
      (run W (fuel + 5) s (fun i => MulA1B.proc (cfg.ctx N i) (x i) (y i))).trace =
        (run (W.moveMul s.draws σ.toEquiv) (fuel + 5) s
          (fun i => MulA1B.proc (cfg.ctx N i) (x' i) (y' i))).trace := by
  let yv := fun (v : Fin N → NdArrayRef) i idx => (((v i).data idx % 2 : ℕ) : ZMod (2 ^ f.width))
  let xv := fun (u v : Fin N → NdArrayRef) i idx =>
    (1 - 2 * yv v i idx) * ((u i).data idx : ZMod (2 ^ f.width))
  refine ⟨mulMove hk f (fun i idx => xv x' y' i idx - xv x y i idx)
    (fun i idx => yv y' i idx - yv y i idx) (by funext idx; simp [xv, yv, hj.1, hj.2])
    (by funext idx; simp [yv, hj.2]) numel, fun W fuel => ?_⟩
  obtain ⟨xx, yy, hxy, htr⟩ := run_MulA1B_trace W cfg s f sh x y (fun i => (hx i).1)
    (fun i => (hy i).1) (fun i => (hxs i).1) (fun i => (hys i).1) fuel
  obtain ⟨xx', yy', hxy', htr'⟩ := run_MulA1B_trace (W.moveMul s.draws _) cfg s f sh x' y'
    (fun i => (hx i).2) (fun i => (hy i).2) (fun i => (hxs i).2) (fun i => (hys i).2) fuel
  rw [htr, htr', World.moveMul_mul]
  congr 1
  refine openMsgs_congr _ _ _ (fun _ i => ?_) (fun _ i => ?_)
  · refine sub_eq_sub ((hxy' i).1.trans (hxy i).1.symm) (by rw [(hxy i).1])
      ((hxy' i).2.1.trans (hxy i).2.1.symm) fun idx => ?_
    simp only [ofFun_data_cast (RingTy_field f), mulMove, shear3, Equiv.coe_fn_mk,
      shiftArr_apply, shiftRes_cast, ((hxy i).2.2.2.2 idx).1, ((hxy' i).2.2.2.2 idx).1, xv, yv]
    ring
  · refine sub_eq_sub ((hxy' i).2.2.1.trans (hxy i).2.2.1.symm) (by rw [(hxy i).2.2.1])
      ((hxy' i).2.2.2.1.trans (hxy i).2.2.2.1.symm) fun idx => ?_
    simp only [ofFun_data_cast (RingTy_field f), mulMove, shear3, Equiv.coe_fn_mk,
      shiftArr_apply, shiftRes_cast, ((hxy i).2.2.2.2 idx).2, ((hxy' i).2.2.2.2 idx).2, yv]
    ring

/-! ## `SquareA` -/

/-- `SquareA` opens `x - a` when `x` misses the cache on every party, and sends nothing
else. -/
theorem run_SquareA_trace (cfg : RuntimeConfig) (s : Sys N) (x : Fin N → NdArrayRef)
    (mx : Prop) [Decidable mx]
    (hsx : ∀ i, ((s.cache i).getCache (x i) false).replay_desc.status = .Init ↔ mx) (fuel : ℕ) :
    (run W (fuel + 3) s (fun i => SquareA.proc (cfg.ctx N i) (x i))).trace =
      s.trace ++ if mx then [.allReduce fun i => (x i).sub (ofFun (x i).eltype (x i).shape
        (W.square s.draws (fun i => ((s.cache i).getCache (x i) false).desc?) i).1)] else [] := by
  simp only [SquareA.proc, Prog.bind_eq, Prog.bind_assoc]
  rw [run_getCache]
  simp only [beaverSquare, Prog.req_bind]
  rw [run_req W _ _ _ _ _ _ (respond_beaverSquare W s _ _ _) fun _ => rfl]
  have hxa : ∀ i (g : ℕ → ℕ), ringSub (x i) (ofFun (x i).eltype (x i).shape g) =
      .ok ((x i).sub (ofFun (x i).eltype (x i).shape g)) := fun i g => ringSub_ok rfl rfl
  simp only [Prog.pure_bind, mkBuffer, decide_True, enforce_true, withDesc_record_status, hsx,
    ne_eq, Prog.liftM_eq, unflattenBuffer, hxa, Prog.ofExcept_ok]
  by_cases hm : mx
  · simp only [hm, not_true_eq_false, if_false, if_true, Prog.pure_bind]
    rw [run_allReduce, run_trace_of_silent _ _ _ _ fun i => by simp]
  · simp only [hm, not_false_eq_true, if_true, if_false, Prog.pure_eq, Prog.pure_bind,
      List.append_nil]
    rw [run_trace_of_silent _ _ _ _ fun i => by simp]

/-- `SquareA` shows party `j` nothing of the secret: a sharing that agrees with `x` on party
`j`, of arrays with the same buffers, sends the same message once the mask `a` of the square
pair is moved by what the inputs differ by, party `k` absorbing the change of the square into
its `b`. -/
theorem SquareA_private (cfg : RuntimeConfig) (s : Sys N) {j k : Fin N} (hk : k ≠ j)
    (f : FieldType) (x x' : Fin N → NdArrayRef) (hx : ∀ i, (x i).eltype.field = f)
    (hx' : ∀ i, (x' i).eltype = (x i).eltype ∧ (x' i).shape = (x i).shape ∧
      (x' i).buf = (x i).buf)
    (hj : x' j = x j) (hsx : Synced s x false) (numel : ℕ) :
    ∃ σ : ShareBijection ((ℕ → ℕ) × (ℕ → ℕ)) j (SquarePairAt f numel), ∀ W fuel,
      (run W (fuel + 3) s (fun i => SquareA.proc (cfg.ctx N i) (x i))).trace =
        (run (W.moveSquare s.draws σ.toEquiv) (fuel + 3) s
          (fun i => SquareA.proc (cfg.ctx N i) (x' i))).trace := by
  let mx := ((s.cache 0).getCache (x 0) false).replay_desc.status = .Init
  let d := fun i => if mx then inputShift f (x i) (x' i) else 0
  refine ⟨squareMove hk f d (by simp [d, hj]) numel, fun W fuel => ?_⟩
  have hc : ∀ i, (s.cache i).getCache (x' i) false = (s.cache i).getCache (x i) false :=
    fun i => BeaverCache.getCache_congr _ (hx' i).2.2 false
  rw [run_SquareA_trace W cfg s x mx hsx, run_SquareA_trace _ cfg s x' mx fun i => hc i ▸ hsx i]
  simp only [hc, World.moveSquare_square]
  congr 1
  split_ifs with hm
  · congr 2
    funext i
    refine sub_eq_sub (hx' i).1 (hx i) (hx' i).2.1 fun idx => ?_
    simp only [ofFun_data_cast (hx i), ofFun_data_cast ((hx' i).1 ▸ hx i), squareMove, shear2,
      Equiv.coe_fn_mk, shiftArr_apply, shiftRes_cast, d, if_pos hm, inputShift, (hx' i).1,
      (hx' i).2.1]
    ring
  · rfl

/-! ## No kernel reveals a secret to one party -/

/-- With two parties or more, every party has another. -/
theorem exists_ne_of_two_le {N : ℕ} (hN : 2 ≤ N) (j : Fin N) : ∃ k : Fin N, k ≠ j :=
  if h : (j : ℕ) = 0 then ⟨⟨1, hN⟩, fun e => by simp [← e] at h⟩
  else ⟨⟨0, by omega⟩, fun e => h (by rw [← e])⟩

/-- The privacy of the kernels that open masked values or exchange masked inputs: for every
world size they run at and every party `j`, two input sharings that agree on party `j` (of
arrays with the same buffers, against caches that hold an operand's opening on every party
or on none) put the same messages on the wire, once the draw of correlated randomness is
moved by a bijection that fixes party `j`'s shares and keeps the source's relation. -/
def RevealsNothing : Prop :=
  (∀ (N : ℕ) [NeZero N], 2 ≤ N → ∀ (cfg : RuntimeConfig) (s : Sys N) (j : Fin N) (f : FieldType)
      (sh : Shape) (x y x' y' : Fin N → NdArrayRef), (∀ i, (x i).eltype.field = f) →
      (∀ i, (y i).eltype.field = f) → (∀ i, (x i).shape = sh) → (∀ i, (y i).shape = sh) →
      (∀ i, (x' i).eltype = (x i).eltype ∧ (x' i).shape = (x i).shape ∧ (x' i).buf = (x i).buf) →
      (∀ i, (y' i).eltype = (y i).eltype ∧ (y' i).shape = (y i).shape ∧ (y' i).buf = (y i).buf) →
      x' j = x j ∧ y' j = y j → Synced s x false → Synced s y false → ∀ numel,
      ∃ σ : ShareBijection ((ℕ → ℕ) × (ℕ → ℕ) × (ℕ → ℕ)) j (MulTripleAt f numel), ∀ W fuel,
        (run W (fuel + 5) s (fun i => MulAA.proc (cfg.ctx N i) (x i) (y i))).trace =
          (run (W.moveMul s.draws σ.toEquiv) (fuel + 5) s
            (fun i => MulAA.proc (cfg.ctx N i) (x' i) (y' i))).trace) ∧
  (∀ (N : ℕ) [NeZero N], 2 ≤ N → ∀ (cfg : RuntimeConfig) (s : Sys N) (j : Fin N) (f : FieldType)
      (m n p : ℕ) (x y x' y' : Fin N → NdArrayRef), (∀ i, (x i).eltype.field = f) →
      (∀ i, (y i).eltype.field = f) → (∀ i, (x i).shape = [m, n]) →
      (∀ i, (y i).shape = [n, p]) →
      (∀ i, (x' i).eltype = (x i).eltype ∧ (x' i).shape = (x i).shape ∧ (x' i).buf = (x i).buf) →
      (∀ i, (y' i).eltype = (y i).eltype ∧ (y' i).shape = (y i).shape ∧ (y' i).buf = (y i).buf) →
      x' j = x j ∧ y' j = y j → Synced s x true → Synced s y true →
      ∃ σ : ShareBijection ((ℕ → ℕ) × (ℕ → ℕ) × (ℕ → ℕ)) j (DotTripleAt f m n p), ∀ W fuel,
        (run W (fuel + 5) s (fun i => MatMulAA.proc (cfg.ctx N i) (x i) (y i))).trace =
          (run (W.moveDot s.draws σ.toEquiv) (fuel + 5) s
            (fun i => MatMulAA.proc (cfg.ctx N i) (x' i) (y' i))).trace) ∧
  (∀ (N : ℕ) [NeZero N], 2 ≤ N → ∀ (cfg : RuntimeConfig) (s : Sys N) (j : Fin N) (f : FieldType)
      (x x' : Fin N → NdArrayRef), (∀ i, (x i).eltype.field = f) →
      (∀ i, (x' i).eltype = (x i).eltype ∧ (x' i).shape = (x i).shape ∧ (x' i).buf = (x i).buf) →
      x' j = x j → Synced s x false → ∀ numel,
      ∃ σ : ShareBijection ((ℕ → ℕ) × (ℕ → ℕ)) j (SquarePairAt f numel), ∀ W fuel,
        (run W (fuel + 3) s (fun i => SquareA.proc (cfg.ctx N i) (x i))).trace =
          (run (W.moveSquare s.draws σ.toEquiv) (fuel + 3) s
            (fun i => SquareA.proc (cfg.ctx N i) (x' i))).trace) ∧
  (∀ (N : ℕ) [NeZero N], 2 ≤ N → ∀ (cfg : RuntimeConfig) (s : Sys N) (j : Fin N) (f : FieldType)
      (sh : Shape) (x y x' y' : Fin N → NdArrayRef),
      (∀ i, (x i).eltype.field = f ∧ (x' i).eltype.field = f) →
      (∀ i, (y i).eltype.field = f ∧ (y' i).eltype.field = f) →
      (∀ i, (x i).shape = sh ∧ (x' i).shape = sh) → (∀ i, (y i).shape = sh ∧ (y' i).shape = sh) →
      x' j = x j ∧ y' j = y j → ∀ numel,
      ∃ σ : ShareBijection ((ℕ → ℕ) × (ℕ → ℕ) × (ℕ → ℕ)) j (MulTripleAt f numel), ∀ W fuel,
        (run W (fuel + 5) s (fun i => MulA1B.proc (cfg.ctx N i) (x i) (y i))).trace =
          (run (W.moveMul s.draws σ.toEquiv) (fuel + 5) s
            (fun i => MulA1B.proc (cfg.ctx N i) (x' i) (y' i))).trace) ∧
  (∀ (N : ℕ) [NeZero N], 3 ≤ N → ∀ (cfg : RuntimeConfig) (s : Sys N) (j : Fin N) (f : FieldType)
      (x x' : Fin N → NdArrayRef), (∀ i, (x i).eltype.field = f) →
      (∀ i, (x' i).eltype = (x i).eltype ∧ (x' i).shape = (x i).shape) → x' j = x j →
      ∀ bits numel, ∃ σ : ShareBijection ((ℕ → ℕ) × (ℕ → ℕ)) j (TruncPairAt f bits numel),
        ∀ W fuel, (run W (fuel + 2) s (fun i => TruncA.proc (cfg.ctx N i) (x i) bits)).trace =
          (run (W.moveTrunc s.draws σ.toEquiv) (fuel + 2) s
            (fun i => TruncA.proc (cfg.ctx N i) (x' i) bits)).trace) ∧
  (∀ (N : ℕ) [NeZero N], 2 ≤ N → ∀ (cfg : RuntimeConfig) (s : Sys N) (j : Fin N) (f : FieldType)
      (x x' : Fin N → NdArrayRef), (∀ i, (x i).eltype.field = f) →
      (∀ i, (x' i).eltype = (x i).eltype ∧ (x' i).shape = (x i).shape) → x' j = x j →
      ∀ bits numel,
      ∃ σ : ShareBijection ((ℕ → ℕ) × (ℕ → ℕ) × (ℕ → ℕ)) j (TruncPrTripleAt f bits numel),
        ∀ W fuel, (run W (fuel + 2) s (fun i => TruncAPr.proc (cfg.ctx N i) (x i) bits)).trace =
          (run (W.moveTruncPr s.draws σ.toEquiv) (fuel + 2) s
            (fun i => TruncAPr.proc (cfg.ctx N i) (x' i) bits)).trace) ∧
  (∀ (cfg : RuntimeConfig) (s : Sys 2) (j : Fin 2) (f : FieldType) (sh : Shape)
      (x y x' y' : Fin 2 → NdArrayRef) (xr yr : Fin 2), xr ≠ yr →
      (∀ i, (x i).eltype = Priv2kTy f xr ∧ (x' i).eltype = Priv2kTy f xr) →
      (∀ i, (y i).eltype = Priv2kTy f yr ∧ (y' i).eltype = Priv2kTy f yr) →
      (∀ i, (x i).shape = sh ∧ (x' i).shape = sh) → (∀ i, (y i).shape = sh ∧ (y' i).shape = sh) →
      x' j = x j ∧ y' j = y j → ∀ numel,
      ∃ σ : ShareBijection ((ℕ → ℕ) × (ℕ → ℕ)) j (MulPrivPairAt f numel), ∀ W fuel,
        (run W (fuel + 2) s (fun i => MulVVS.proc (cfg.ctx 2 i) (x i) (y i))).trace =
          (run (W.moveMulPriv s.draws σ.toEquiv) (fuel + 2) s
            (fun i => MulVVS.proc (cfg.ctx 2 i) (x' i) (y' i))).trace) ∧
  (∀ (cfg : RuntimeConfig) (s : Sys 2) (j : Fin 2) (f : FieldType) (sh : Shape)
      (x x' : Fin 2 → NdArrayRef), (∀ i, (x i).eltype.field = f ∧ (x' i).eltype.field = f) →
      (∀ i, (x i).shape = sh ∧ (x' i).shape = sh) → x' j = x j → ∀ d ft,
      getTruncField d = .pure ft → ∀ numel,
      ∃ σ : ShareBijection ((ℕ → ℕ) × (ℕ → ℕ)) j (MulPrivPairAt ft numel), ∀ W fuel,
        (run W (fuel + 2) s (fun i => TruncAPr2.proc (cfg.ctx 2 i) (x i) d)).trace =
          (run (W.moveMulPriv s.draws σ.toEquiv) (fuel + 2) s
            (fun i => TruncAPr2.proc (cfg.ctx 2 i) (x' i) d)).trace)

theorem kernels_reveal_nothing : RevealsNothing := by
  refine ⟨fun N _ hN cfg s j f sh x y x' y' hx hy hxs hys hx' hy' hj hsx hsy numel => ?_,
    fun N _ hN cfg s j f m n p x y x' y' hx hy hxs hys hx' hy' hj hsx hsy => ?_,
    fun N _ hN cfg s j f x x' hx hx' hj hsx numel => ?_,
    fun N _ hN cfg s j f sh x y x' y' hx hy hxs hys hj numel => ?_,
    fun N _ hN cfg s j f x x' hx hx' hj bits numel => ?_,
    fun N _ hN cfg s j f x x' hx hx' hj bits numel => ?_,
    fun cfg s j f sh x y x' y' xr yr hxy hx hy hxs hys hj numel => ?_,
    fun cfg s j f sh x x' hx hxs hj d ft hft numel => ?_⟩
  all_goals obtain ⟨k, hk⟩ := exists_ne_of_two_le (by omega) j
  · exact MulAA_private cfg s hk f sh x y x' y' hx hy hxs hys hx' hy' hj hsx hsy numel
  · exact MatMulAA_private cfg s hk f m n p x y x' y' hx hy hxs hys hx' hy' hj hsx hsy
  · exact SquareA_private cfg s hk f x x' hx hx' hj hsx numel
  · exact MulA1B_private cfg s hk f sh x y x' y' hx hy hxs hys hj numel
  · exact TruncA_pair_private cfg s (by omega) hk f x x' hx hx' hj bits numel
  · exact TruncAPr_private cfg s hk f x x' hx hx' hj bits numel
  · exact MulVVS_private cfg s hk f sh x y x' y' xr yr hxy hx hy hxs hys hj numel
  · exact TruncAPr2_private cfg s hk f sh x x' hx hxs hj d ft hft numel

/-- Two sharings of one element that agree on party 0 and differ on party 1: party 1's share
is `1` instead of `0`, so the secret is `1` instead of `0`. -/
def otherSecret : Fin 2 → NdArrayRef :=
  fun i => if (i : ℕ) = 0 then constant (AShrTy .FM64) [1] else ofFun (AShrTy .FM64) [1] fun _ => 1

theorem MulAA_hides_other_share :
    ∃ σ : ShareBijection ((ℕ → ℕ) × (ℕ → ℕ) × (ℕ → ℕ)) (0 : Fin 2) (MulTripleAt .FM64 1),
      ∀ W fuel, (run W (fuel + 5) (Sys.init 2) (fun i =>
          MulAA.proc ((⟨false, .FM64⟩ : RuntimeConfig).ctx 2 i) (constant (AShrTy .FM64) [1])
            (constant (AShrTy .FM64) [1]))).trace =
        (run (W.moveMul (Sys.init 2).draws σ.toEquiv) (fuel + 5) (Sys.init 2) (fun i =>
          MulAA.proc ((⟨false, .FM64⟩ : RuntimeConfig).ctx 2 i) (otherSecret i)
            (constant (AShrTy .FM64) [1]))).trace :=
  kernels_reveal_nothing.1 2 (le_refl 2) ⟨false, .FM64⟩ (Sys.init 2) 0 .FM64 [1]
    (fun _ => constant (AShrTy .FM64) [1]) (fun _ => constant (AShrTy .FM64) [1]) otherSecret
    (fun _ => constant (AShrTy .FM64) [1]) (fun _ => rfl) (fun _ => rfl) (fun _ => rfl)
    (fun _ => rfl) (fun i => by unfold otherSecret; split_ifs <;> exact ⟨rfl, rfl, rfl⟩)
    (fun _ => ⟨rfl, rfl, rfl⟩) ⟨rfl, rfl⟩ (fun _ => Iff.rfl) (fun _ => Iff.rfl) 1

end Semi2k
