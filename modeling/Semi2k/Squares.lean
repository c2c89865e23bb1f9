import Semi2k.Products

/-!
# Beaver squares reconstruct the square

For any number of parties, `SquareA` turns a sharing of `x` into a sharing of `x ^ 2` when
the Beaver source keeps its square-pair contract, whether `x - a` is opened by all-reduce or
taken from the replay cache: each party adds `2 (x - a) a` to its `b`, and rank 0 adds the
square of the opening once.  The run is taken phase by phase, as for `MulOpen`: the lookup,
the pair, the opening, and the store, which is local to each party.
-/

namespace Semi2k

open NdArrayRef

variable {N : ℕ}

/-- The pair `SquareA` draws from `s`: the Beaver source's answer to the descriptors of the
entries the parties look up. -/
def squareDraw (W : World N) (s : Sys N) (x : Fin N → NdArrayRef) :
    Fin N → (ℕ → ℕ) × (ℕ → ℕ) :=
  W.square s.draws fun i => ((s.cache i).getCache (x i) false).desc?

variable [NeZero N] (W : World N)

/-- `SquareA` on an operand that hits the cache on every party or on none, with every cached
opening an opening of `x` against the masks the draw returns: one draw, the store, and
outputs that share `x ^ 2` when the draw is a square pair. -/
theorem run_SquareA (cfg : RuntimeConfig) (s : Sys N) (f : FieldType)
    (x : Fin N → NdArrayRef) (hx : ∀ i, (x i).eltype.field = f) (mx : Prop) [Decidable mx]
    (hsx : ∀ i, ((s.cache i).getCache (x i) false).replay_desc.status = .Init ↔ mx)
    (numel : ℕ)
    (hox : ¬mx → ∀ i, IsOpening f numel x (fun j => (squareDraw W s x j).1) i
      ((s.cache i).getCache (x i) false).open_cache) (fuel : ℕ) :
    ∃ (X z : Fin N → NdArrayRef) (msgs : List (Msg N)),
      (∀ i, IsOpening f numel x (fun j => (squareDraw W s x j).1) i (X i)) ∧
      run W (fuel + 6) s (fun i => SquareA.proc (cfg.ctx N i) (x i)) =
        .done z { s with
          draws := s.draws + 1
          trace := s.trace ++ msgs
          cache := fun i => (s.cache i).store (x i) false
            (((s.cache i).getCache (x i) false).withDesc (record
              ((s.cache i).getCache (x i) false).desc?
              (mkBuffer f (x i).numel (squareDraw W s x i).1)))
            (X i) } ∧
      (SquarePair W f s.draws numel →
        ∀ idx < numel, reconstruct f z idx = reconstruct f x idx ^ 2) := by
  let t := W.square s.draws fun i => ((s.cache i).getCache (x i) false).desc?
  let a := fun i => ofFun (x i).eltype (x i).shape (t i).1
  let b := fun i => ofFun (x i).eltype (x i).shape (t i).2
  let X := fun i => if mx then reduceAdd (fun j => (x j).sub (a j)) i
    else ((s.cache i).getCache (x i) false).open_cache
  have hX : ∀ i, IsOpening f numel x (fun j => (t j).1) i (X i) := fun i => by
    by_cases hmx : mx
    · simp only [X, if_pos hmx]
      exact (IsOpening.mask_congr fun j idx => by simp [a, hx]).mp (isOpening_reduceAdd hx _ i)
    · simp only [X, if_neg hmx]
      exact hox hmx i
  have hXf : ∀ i, (X i).eltype.field = f := fun i => by rw [(hX i).1, hx]
  let w := fun i => (((a i).mul (X i)).mulScalar 2).add (b i)
  let w' := fun i : Fin N => if (i : ℕ) = 0 then (w i).add ((X i).mul (X i)) else w i
  refine ⟨X, w', if mx then [.allReduce fun i => (x i).sub (a i)] else [], hX, ?_,
    fun hW idx hidx => ?_⟩
  · simp only [SquareA.proc, Prog.bind_eq, Prog.bind_assoc]
    rw [run_getCache]
    simp only [beaverSquare, Prog.req_bind]
    rw [run_req W _ _ _ _ _ _ (respond_beaverSquare W s _ _ _) fun _ => rfl]
    have hxa : ∀ i, ringSub (x i) (a i) = .ok ((x i).sub (a i)) := fun i => ringSub_ok rfl rfl
    simp only [Prog.pure_bind, mkBuffer, decide_True, enforce_true, withDesc_record_status, hsx,
      ne_eq, Prog.liftM_eq, unflattenBuffer]
    simp only [show ∀ i, ofFun (x i).eltype (x i).shape (t i).1 = a i from fun _ => rfl, hxa,
      Prog.ofExcept_ok, Prog.pure_bind, Prog.pure_eq, withDesc_open_cache]
    refine (run_openSingle W mx (fun i => ((s.cache i).getCache (x i) false).open_cache)
      (fun i => (x i).sub (a i)) _ (fuel + 3) _).trans ?_
    rw [show fuel + 3 + (if mx then 0 else 1) = 1 + 1 + (fuel + 1 + if mx then 0 else 1) by omega]
    refine run_local W 1 _ _ _ w' _ fun i => localRun_storeOpen_store _ _ _ _ _ ?_
    have hXe : (X i).eltype = (x i).eltype := (hX i).1
    have hXs : (X i).shape = (x i).shape := (hX i).2.1
    simp only [X] at hXe hXs
    simp [a, b, hXe, hXs, hx]
    rfl
  have hXi : ∀ i, ((X i).data idx : ZMod (2 ^ f.width)) =
      ∑ j, ((x j).data idx : ZMod _) - ∑ j, ((t j).1 idx : ZMod _) := fun i => by
    rw [(hX i).2.2 idx hidx, Finset.sum_sub_distrib]
  have hwi : ∀ i, ((w' i).data idx : ZMod (2 ^ f.width)) =
      if (i : ℕ) = 0 then
        ((t i).1 idx * (X i).data idx * 2 + (t i).2 idx : ZMod (2 ^ f.width)) +
          (X i).data idx * (X i).data idx
      else (t i).1 idx * (X i).data idx * 2 + (t i).2 idx := fun i => by
    simp (disch := simp [a, hx, hXf]) only [w', w, ite_data, ite_apply, Nat.cast_ite,
      add_data_cast, mulScalar_data_cast, mul_data_cast, Nat.cast_ofNat, a, b,
      ofFun_data_cast (hx i)]
  have hpair : ∑ i, ((t i).2 idx : ZMod (2 ^ f.width)) =
      (∑ i, ((t i).1 idx : ZMod (2 ^ f.width))) ^ 2 := hW _ idx hidx
  simp only [reconstruct, hwi, hXi]
  rw [sum_ite_add_rank 0 (NeZero.pos N), Finset.sum_add_distrib, ← Finset.sum_mul,
    ← Finset.sum_mul, hpair]
  ring

/-- `SquareA` reconstructs the square, for every number of parties: run on a sharing of `x`
whose `x - a` is opened by all-reduce or taken from the replay cache (on every party or on
none, a cached opening being the opening of `x` against the mask the draw returns), with a
square pair from the Beaver source, the outputs share `x ^ 2`. -/
theorem SquareA_reconstructs_square (cfg : RuntimeConfig) (s : Sys N) (f : FieldType)
    (x : Fin N → NdArrayRef) (hx : ∀ i, (x i).eltype.field = f) (mx : Prop) [Decidable mx]
    (hsx : ∀ i, ((s.cache i).getCache (x i) false).replay_desc.status = .Init ↔ mx)
    (numel : ℕ)
    (hox : ¬mx → ∀ i, IsOpening f numel x (fun j => (squareDraw W s x j).1) i
      ((s.cache i).getCache (x i) false).open_cache)
    (hW : SquarePair W f s.draws numel) (fuel : ℕ) :
    ∃ z s', run W (fuel + 6) s (fun i => SquareA.proc (cfg.ctx N i) (x i)) = .done z s' ∧
      ∀ idx < numel, reconstruct f z idx = reconstruct f x idx ^ 2 := by
  obtain ⟨_, z, _, _, hrun, hz⟩ := run_SquareA W cfg s f x hx mx hsx numel hox fuel
  exact ⟨z, _, hrun, hz hW⟩

theorem SquareA_square_two_parties :
    ∃ z s', run (World.replaying 2) (0 + 6) (Sys.init 2)
        (fun i => SquareA.proc ((⟨false, .FM64⟩ : RuntimeConfig).ctx 2 i)
          (ofFun (AShrTy .FM64) [2] fun idx => 4 * i + idx + 3)) = .done z s' ∧
      ∀ idx < 2, reconstruct .FM64 z idx =
        reconstruct .FM64 (fun i : Fin 2 => ofFun (AShrTy .FM64) [2] fun idx =>
          4 * i + idx + 3) idx ^ 2 :=
  SquareA_reconstructs_square (World.replaying 2) ⟨false, .FM64⟩ (Sys.init 2) .FM64
    (fun i => ofFun (AShrTy .FM64) [2] fun idx => 4 * i + idx + 3) (fun _ => rfl) True
    (fun _ => iff_true_intro rfl) 2 (fun h => absurd trivial h) (replaying_squarePair _ _ _) 0

end Semi2k
