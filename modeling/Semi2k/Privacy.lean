import Semi2k.Resharing
import Semi2k.Truncations

/-!
# What the kernels put on the wire

A kernel that opens a masked value or sends one reveals nothing to a party beyond its own
inputs when every message it sends can be produced, from that party's own shares, by
moving the other parties' correlated randomness.  For each kernel this module computes the
messages a run appends to the trace, as a function of the inputs and of the one draw the
kernel makes, and shows that two sharings which agree on party `j` append the same
messages once the draw is moved by a `ShareBijection` that leaves party `j`'s shares alone
and keeps the source's relation.  Equal traces give party `j` equal views: every
contribution to every all-reduce and every message sent is the same in the two runs.
-/

namespace Semi2k

open NdArrayRef

/-- Two arrays of one type, shape and buffer with the same elements in the ring are
equal. -/
theorem NdArrayRef.ext_cast {f : FieldType} {x y : NdArrayRef} (he : x.eltype = y.eltype)
    (hf : x.eltype.field = f) (hs : x.shape = y.shape) (hb : x.buf = y.buf)
    (hd : ∀ idx, (x.data idx : ZMod (2 ^ f.width)) = y.data idx) : x = y := by
  rcases x with ⟨ex, sx, bx, dx, hx⟩
  rcases y with ⟨ey, sy, byy, dy, hy⟩
  simp only at he hf hs hb hd
  subst he hf hs hb
  congr
  funext idx
  exact eq_of_natCast_eq (hx idx) (hy idx) (hd idx)

/-- `x - a` is the same array as `x' - a'` when the two differences agree in the ring. -/
theorem sub_eq_sub {f : FieldType} {x x' a a' : NdArrayRef} (he : x'.eltype = x.eltype)
    (hf : x.eltype.field = f) (hs : x'.shape = x.shape)
    (hd : ∀ idx, ((x.data idx : ZMod (2 ^ f.width)) - a.data idx) =
      (x'.data idx : ZMod (2 ^ f.width)) - a'.data idx) :
    x.sub a = x'.sub a' :=
  NdArrayRef.ext_cast he.symm hf hs.symm rfl fun idx => by
    rw [sub_data_cast _ _ _ hf, hd idx, sub_data_cast _ _ _ (he ▸ hf)]

/-- Two fresh arrays of one type and shape with the same elements in the ring are equal. -/
theorem ofFun_congr {f : FieldType} {t : Ty} (ht : t.field = f) {sh : Shape} {g g' : ℕ → ℕ}
    (h : ∀ idx, (g idx : ZMod (2 ^ f.width)) = g' idx) : ofFun t sh g = ofFun t sh g' :=
  NdArrayRef.ext_cast rfl ht rfl rfl fun idx => by
    rw [ofFun_data_cast ht, ofFun_data_cast ht]; exact h idx

/-- `a + x` is the same array as `a' + x'` when the two sums agree in the ring. -/
theorem add_eq_add {f : FieldType} {a a' x x' : NdArrayRef} (he : a'.eltype = a.eltype)
    (hf : a.eltype.field = f) (hs : a'.shape = a.shape)
    (hd : ∀ idx, ((a.data idx : ZMod (2 ^ f.width)) + x.data idx) =
      (a'.data idx : ZMod (2 ^ f.width)) + x'.data idx) :
    a.add x = a'.add x' :=
  NdArrayRef.ext_cast he.symm hf hs.symm rfl fun idx => by
    rw [add_data_cast _ _ _ hf, hd idx, add_data_cast _ _ _ (he ▸ hf)]

/-- What party `i`'s input differs by between two sharings, element by element. -/
def inputShift (f : FieldType) (x x' : NdArrayRef) : ℕ → ZMod (2 ^ f.width) :=
  fun idx => (x'.data idx : ZMod (2 ^ f.width)) - x.data idx

@[simp] theorem inputShift_self (f : FieldType) (x : NdArrayRef) : inputShift f x x = 0 := by
  funext idx; simp [inputShift]

variable {N : ℕ} [NeZero N] (W : World N)

/-! ## `TruncA`, the truncation-pair branch -/

/-- With other than two parties `TruncA` sends one message: every party's `x - r`. -/
theorem run_TruncA_pair_trace (cfg : RuntimeConfig) (s : Sys N) (hN : N ≠ 2)
    (x : Fin N → NdArrayRef) (bits fuel : ℕ) :
    (run W (fuel + 2) s (fun i => TruncA.proc (cfg.ctx N i) (x i) bits)).trace =
      s.trace ++ [.allReduce fun i =>
        (x i).sub (ofFun (x i).eltype (x i).shape (W.trunc s.draws i).1)] := by
  simp only [TruncA.proc, RuntimeConfig.ctx_worldSize, if_neg hN, beaverTrunc, Prog.bind_eq,
    Prog.req_bind]
  rw [run_req W _ s _ _ _ _ (respond_beaverTrunc W s (fun i => (x i).eltype.field)
    (fun i => (x i).numel) (fun _ => bits)) fun _ => rfl]
  simp only [Prog.bind_eq, Prog.pure_bind, unflattenBuffer, mkBuffer, Prog.monadLift_eq,
    ringSub_ok, ofFun_eltype, ofFun_shape, Prog.ofExcept_ok]
  rw [run_allReduce, run_trace_of_silent]
  intro i
  split_ifs
  · exact (Prog.silent_ofExcept _).bind fun _ => Prog.silent_ofExcept _
  · exact Prog.silent_ofExcept _

/-- `TruncA`'s truncation-pair branch shows party `j` nothing of the secret: a sharing that
agrees with `x` on party `j` sends the same message once the other parties' masks `r` are
moved by what their inputs differ by. -/
theorem TruncA_pair_private (cfg : RuntimeConfig) (s : Sys N) (hN : N ≠ 2) {j k : Fin N}
    (hk : k ≠ j) (f : FieldType) (x x' : Fin N → NdArrayRef) (hx : ∀ i, (x i).eltype.field = f)
    (hx' : ∀ i, (x' i).eltype = (x i).eltype ∧ (x' i).shape = (x i).shape) (hj : x' j = x j)
    (bits numel : ℕ) :
    ∃ σ : ShareBijection ((ℕ → ℕ) × (ℕ → ℕ)) j (TruncPairAt f bits numel), ∀ W fuel,
      (run W (fuel + 2) s (fun i => TruncA.proc (cfg.ctx N i) (x i) bits)).trace =
        (run (W.moveTrunc s.draws σ.toEquiv) (fuel + 2) s
          (fun i => TruncA.proc (cfg.ctx N i) (x' i) bits)).trace := by
  refine ⟨truncMove hk f (fun i => inputShift f (x i) (x' i)) (by simp [hj]) bits numel,
    fun W fuel => ?_⟩
  rw [run_TruncA_pair_trace W cfg s hN, run_TruncA_pair_trace _ cfg s hN, World.moveTrunc_trunc]
  congr 3
  funext i
  refine sub_eq_sub (hx' i).1 (hx i) (hx' i).2 fun idx => ?_
  simp only [ofFun_data_cast (hx i), ofFun_data_cast (((hx' i).1).symm ▸ hx i), truncMove,
    shear2, Equiv.coe_fn_mk, shiftArr_apply, shiftRes_cast, inputShift]
  ring

/-! ## `TruncAPr` -/

/-- `TruncAPr` sends one message: every party's `x + r`, rank 0's re-centred by `2^(k-2)`. -/
theorem run_TruncAPr_trace (cfg : RuntimeConfig) (s : Sys N) (x : Fin N → NdArrayRef)
    (bits fuel : ℕ) :
    (run W (fuel + 2) s (fun i => TruncAPr.proc (cfg.ctx N i) (x i) bits)).trace =
      s.trace ++ [.allReduce fun i => ofFun (RingTy (x i).eltype.field) [(x i).numel] fun idx =>
        (x i).data idx + (if (i : ℕ) = 0 then 2 ^ ((x i).eltype.field.sizeOf * 8 - 2) else 0) +
          (W.truncPr s.draws i).1 idx] := by
  simp only [TruncAPr.proc, beaverTruncPr, Prog.bind_eq, Prog.req_bind]
  rw [run_req W _ s _ _ _ _ (respond_beaverTruncPr W s (fun i => (x i).eltype.field)
    (fun i => (x i).numel) (fun _ => bits)) fun _ => rfl]
  simp only [Prog.bind_eq, Prog.pure_bind, mkBuffer, enforce_true, decide_True,
    RuntimeConfig.ctx_rank]
  rw [run_allReduce, run_trace_of_silent]
  exact fun i => Prog.silent_pure _

/-- `TruncAPr` shows party `j` nothing of the secret: a sharing that agrees with `x` on party
`j` sends the same message once the other parties' masks `r` are moved by what their inputs
differ by, the other party `k` absorbing the change of the mask's bits into `rc` and `rb`. -/
theorem TruncAPr_private (cfg : RuntimeConfig) (s : Sys N) {j k : Fin N} (hk : k ≠ j)
    (f : FieldType) (x x' : Fin N → NdArrayRef) (hx : ∀ i, (x i).eltype.field = f)
    (hx' : ∀ i, (x' i).eltype = (x i).eltype ∧ (x' i).shape = (x i).shape) (hj : x' j = x j)
    (bits numel : ℕ) :
    ∃ σ : ShareBijection ((ℕ → ℕ) × (ℕ → ℕ) × (ℕ → ℕ)) j (TruncPrTripleAt f bits numel),
      ∀ W fuel, (run W (fuel + 2) s (fun i => TruncAPr.proc (cfg.ctx N i) (x i) bits)).trace =
        (run (W.moveTruncPr s.draws σ.toEquiv) (fuel + 2) s
          (fun i => TruncAPr.proc (cfg.ctx N i) (x' i) bits)).trace := by
  refine ⟨truncPrMove hk f (fun i => inputShift f (x' i) (x i)) (by simp [hj]) bits numel,
    fun W fuel => ?_⟩
  rw [run_TruncAPr_trace, run_TruncAPr_trace, World.moveTruncPr_truncPr]
  congr 3
  funext i
  have hn : (x' i).numel = (x i).numel := by simp [NdArrayRef.numel, (hx' i).2]
  rw [(hx' i).1, hn]
  refine ofFun_congr (f := f) (by simp [hx]) fun idx => ?_
  simp only [truncPrMove, shearPr, Equiv.coe_fn_mk, shiftArr_apply,
    Nat.cast_add, shiftRes_cast, inputShift]
  ring

/-! ## `MulVVS` -/

section TwoParties

variable (W : World 2)

/-- `MulVVS` sends one message each way: every party's input masked by its `a`. -/
theorem run_MulVVS_trace (cfg : RuntimeConfig) (s : Sys 2) (f : FieldType) (sh : Shape)
    (x y : Fin 2 → NdArrayRef) (xr yr : Fin 2) (hxy : xr ≠ yr)
    (hx : ∀ i, (x i).eltype = Priv2kTy f xr) (hy : ∀ i, (y i).eltype = Priv2kTy f yr)
    (hxs : ∀ i, (x i).shape = sh) (hys : ∀ i, (y i).shape = sh) {β : Type}
    (k : Fin 2 → NdArrayRef → Prog β) (hk : ∀ i a, (k i a).Silent) (fuel : ℕ) :
    (run W (fuel + 2) s (fun i => (MulVVS.proc (cfg.ctx 2 i) (x i) (y i)).bind (k i))).trace =
      s.trace ++ [.send (fun i => (cfg.ctx 2 i).nextRank) fun i =>
        (ofFun (RingTy f) sh (W.mulPriv s.draws i).1).add (if (i : ℕ) = xr then x i else y i)] := by
  have hxy' : (xr : ℕ) ≠ yr := Fin.val_ne_of_ne hxy
  simp only [MulVVS.proc, privOwner, hx, hy, Priv2kTy_owner?, Priv2kTy_field, Prog.bind_eq,
    Prog.pure_bind, Prog.bind_assoc, RuntimeConfig.ctx_rank, ite_owner_two hxy, Prog.pure_eq,
    Prog.ite_pure, beaverMulPriv, Prog.req_bind, numel, hxs, ne_eq, hxy', not_false_eq_true,
    decide_True, enforce_true]
  rw [run_req W _ s _ _ _ _ (respond_beaverMulPriv W s (fun _ => f) (fun _ => sh.prod))
    fun _ => rfl]
  have hin : ∀ i : Fin 2, ((if (i : ℕ) = xr then x i else y i).eltype.field = f ∧
      (if (i : ℕ) = xr then x i else y i).shape = sh) := fun i => by
    split_ifs <;> simp [hx, hy, hxs, hys]
  simp only [Prog.pure_bind, mkBuffer, enforce_true, decide_True, Prog.liftM_eq,
    unflattenBuffer, ringAdd_ok, ofFun_eltype, ofFun_shape, RingTy_field, hin, Prog.ofExcept_ok,
    ite_rank_two]
  rw [run_sendAsync, run_trace_of_silent]
  exact fun i => (Prog.silent_recv _ _).bind fun _ => (Prog.silent_ofExcept _).bind fun _ =>
    (Prog.silent_ite ((Prog.silent_ofExcept _).bind fun _ => Prog.silent_ofExcept _)
      ((Prog.silent_ofExcept _).bind fun _ => Prog.silent_ofExcept _)).bind (hk i)

/-- `MulVVS` shows party `j` nothing of the other party's input: whichever party owns `x`,
inputs that agree on party `j` send the same messages once the other party's `a` is moved by
what its input differs by, that party absorbing the change of `a0 * a1` into its `c`. -/
theorem MulVVS_private (cfg : RuntimeConfig) (s : Sys 2) {j k : Fin 2} (hk : k ≠ j)
    (f : FieldType) (sh : Shape) (x y x' y' : Fin 2 → NdArrayRef) (xr yr : Fin 2)
    (hxy : xr ≠ yr) (hx : ∀ i, (x i).eltype = Priv2kTy f xr ∧ (x' i).eltype = Priv2kTy f xr)
    (hy : ∀ i, (y i).eltype = Priv2kTy f yr ∧ (y' i).eltype = Priv2kTy f yr)
    (hxs : ∀ i, (x i).shape = sh ∧ (x' i).shape = sh)
    (hys : ∀ i, (y i).shape = sh ∧ (y' i).shape = sh) (hj : x' j = x j ∧ y' j = y j)
    (numel : ℕ) :
    ∃ σ : ShareBijection ((ℕ → ℕ) × (ℕ → ℕ)) j (MulPrivPairAt f numel), ∀ W fuel,
      (run W (fuel + 2) s (fun i => MulVVS.proc (cfg.ctx 2 i) (x i) (y i))).trace =
        (run (W.moveMulPriv s.draws σ.toEquiv) (fuel + 2) s
          (fun i => MulVVS.proc (cfg.ctx 2 i) (x' i) (y' i))).trace := by
  let inp := fun (u v : Fin 2 → NdArrayRef) (i : Fin 2) => if (i : ℕ) = xr then u i else v i
  refine ⟨mulPrivMove hk f (fun i => inputShift f (inp x' y' i) (inp x y i))
    (by simp [inp, hj.1, hj.2]) numel, fun W fuel => ?_⟩
  have htr := fun (W : World 2) (u v : Fin 2 → NdArrayRef) hu hv hus hvs =>
    run_MulVVS_trace W cfg s f sh u v xr yr hxy hu hv hus hvs (fun _ => Prog.pure)
      (fun _ _ => trivial) fuel
  simp only [Prog.bind_pure] at htr
  rw [htr W x y (fun i => (hx i).1) (fun i => (hy i).1) (fun i => (hxs i).1) (fun i => (hys i).1),
    htr _ x' y' (fun i => (hx i).2) (fun i => (hy i).2) (fun i => (hxs i).2)
      (fun i => (hys i).2), World.moveMulPriv_mulPriv]
  congr 3
  funext i
  refine add_eq_add rfl (RingTy_field f) rfl fun idx => ?_
  simp only [ofFun_data_cast (RingTy_field f), mulPrivMove, shear2, Equiv.coe_fn_mk,
    shiftArr_apply, shiftRes_cast, inputShift, inp]
  ring

/-! ## `TruncAPr2` -/

/-- `TruncAPr2` sends one message each way, from `computeMW`'s private product: every party's
bit of `MW` masked by its `a` of the narrow ring. -/
theorem run_TruncAPr2_trace (cfg : RuntimeConfig) (s : Sys 2) (f : FieldType) (sh : Shape)
    (x : Fin 2 → NdArrayRef) (hx : ∀ i, (x i).eltype.field = f) (hxs : ∀ i, (x i).shape = sh)
    (d : ℕ) (ft : FieldType) (hft : getTruncField d = .pure ft) (fuel : ℕ) :
    (run W (fuel + 2) s (fun i => TruncAPr2.proc (cfg.ctx 2 i) (x i) d)).trace =
      s.trace ++ [.send (fun i => (cfg.ctx 2 i).nextRank) fun i =>
        (ofFun (RingTy ft) sh (W.mulPriv s.draws i).1).add
          (ofFun (RingTy ft) sh fun idx => mwBit f.width i ((x i).data idx))] := by
  set X := fun i : Fin 2 => if (i : ℕ) = 0 then
      (ofFun (RingTy ft) sh fun idx => mwBit f.width i ((x i).data idx)).retype (Priv2kTy ft 0) rfl
    else constant (Priv2kTy ft 0) sh
  set Y := fun i : Fin 2 => if (i : ℕ) = 0 then constant (Priv2kTy ft 1) sh
    else (ofFun (RingTy ft) sh fun idx => mwBit f.width i ((x i).data idx)).retype
      (Priv2kTy ft 1) rfl
  have hr : ∀ i : Fin 2, (i : ℕ) = 0 ∨ (i : ℕ) = 1 := fun i => by omega
  have hw : f.sizeOf * 8 = f.width := rfl
  simp only [TruncAPr2.proc, computeMW, hft, Prog.pure_bind, Prog.bind_eq, RuntimeConfig.ctx_rank,
    Prog.pure_eq, Prog.monadLift_eq, Prog.liftM_eq, as_eq, RingTy_field, Priv2kTy_field,
    ofFun_eltype, Prog.ofExcept_ok, wrap_mulvvs, hr, decide_True, enforce_true, if_true,
    Prog.ite_pure, Prog.bind_assoc, apply_ite Prod.fst, apply_ite Prod.snd,
    apply_ite NdArrayRef.shape, apply_ite NdArrayRef.eltype, ite_self, retype_shape,
    retype_eltype, constant_shape, constant_eltype, ofFun_shape, Priv2kTy_owner?,
    Option.isSome_some, ne_eq, Option.some.injEq, zero_ne_one, not_false_eq_true, hx, hxs,
    eq_self_iff_true, hw]
  rw [run_MulVVS_trace W cfg s ft sh X Y 0 1 (by decide)
    (fun i => by simp only [X]; split_ifs <;> rfl) (fun i => by simp only [Y]; split_ifs <;> rfl)
    (fun i => by simp only [X]; split_ifs <;> rfl) (fun i => by simp only [Y]; split_ifs <;> rfl)]
  · congr 3
    funext i
    fin_cases i <;> rfl
  · intro i a
    exact (Prog.silent_ofExcept _).bind fun _ => Prog.silent_pure _

/-- `TruncAPr2` shows party `j` nothing of the secret: a sharing that agrees with `x` on
party `j` sends the same messages once the other party's `a` of the narrow ring is moved by
what its bit of `MW` differs by, that party absorbing the change of `a0 * a1` into its `c`. -/
theorem TruncAPr2_private (cfg : RuntimeConfig) (s : Sys 2) {j k : Fin 2} (hk : k ≠ j)
    (f : FieldType) (sh : Shape) (x x' : Fin 2 → NdArrayRef)
    (hx : ∀ i, (x i).eltype.field = f ∧ (x' i).eltype.field = f)
    (hxs : ∀ i, (x i).shape = sh ∧ (x' i).shape = sh) (hj : x' j = x j) (d : ℕ)
    (ft : FieldType) (hft : getTruncField d = .pure ft) (numel : ℕ) :
    ∃ σ : ShareBijection ((ℕ → ℕ) × (ℕ → ℕ)) j (MulPrivPairAt ft numel), ∀ W fuel,
      (run W (fuel + 2) s (fun i => TruncAPr2.proc (cfg.ctx 2 i) (x i) d)).trace =
        (run (W.moveMulPriv s.draws σ.toEquiv) (fuel + 2) s
          (fun i => TruncAPr2.proc (cfg.ctx 2 i) (x' i) d)).trace := by
  let bit := fun (u : Fin 2 → NdArrayRef) (i : Fin 2) idx =>
    (mwBit f.width i ((u i).data idx) : ZMod (2 ^ ft.width))
  refine ⟨mulPrivMove hk ft (fun i idx => bit x i idx - bit x' i idx) (by simp [bit, hj]; rfl)
    numel, fun W fuel => ?_⟩
  rw [run_TruncAPr2_trace W cfg s f sh x (fun i => (hx i).1) (fun i => (hxs i).1) d ft hft,
    run_TruncAPr2_trace _ cfg s f sh x' (fun i => (hx i).2) (fun i => (hxs i).2) d ft hft,
    World.moveMulPriv_mulPriv]
  congr 3
  funext i
  refine add_eq_add rfl (RingTy_field ft) rfl fun idx => ?_
  simp only [ofFun_data_cast (RingTy_field ft), mulPrivMove, shear2, Equiv.coe_fn_mk,
    shiftArr_apply, shiftRes_cast, bit]
  ring

end TwoParties

end Semi2k
