import Semi2k.Kernels.Multiplication
import Semi2k.Sharing

/-!
# Beaver products reconstruct the product

For any number of parties, `MulAA` and `MatMulAA` turn sharings of `x` and `y` into a
sharing of their product when the Beaver source keeps its contract, whether `MulOpen` opens
`x - a` and `y - b` by all-reduce (in the batched round or in two) or takes an opening the
replay cache holds.  The run of `MulOpen` is taken phase by phase: the cache lookups, the
triple, the opening, and the stores, which are local to each party.  Every phase is stated
for operands that hit the cache on every party or on none, and says what the stores leave
in each party's cache.
-/

namespace Semi2k

open NdArrayRef

variable {N : ℕ}

/-! ## Openings -/

/-- Party `i`'s copy of the opening of `x - m`: an array of `x`'s type and shape whose first
`numel` elements are, in the ring of `f`, the sums over the parties of `x - m`. -/
def IsOpening (f : FieldType) (numel : ℕ) (x : Fin N → NdArrayRef) (m : Fin N → ℕ → ℕ)
    (i : Fin N) (o : NdArrayRef) : Prop :=
  o.eltype = (x i).eltype ∧ o.shape = (x i).shape ∧
    ∀ idx < numel, (o.data idx : ZMod (2 ^ f.width)) =
      ∑ j, (((x j).data idx : ZMod (2 ^ f.width)) - m j idx)

/-- Masks that agree in the ring open to the same values. -/
theorem IsOpening.mask_congr {f : FieldType} {numel : ℕ} {x : Fin N → NdArrayRef}
    {m m' : Fin N → ℕ → ℕ} {i : Fin N} {o : NdArrayRef}
    (h : ∀ j idx, (m j idx : ZMod (2 ^ f.width)) = m' j idx) :
    IsOpening f numel x m i o ↔ IsOpening f numel x m' i o := by
  simp only [IsOpening, h]

/-- An opening that is computed on a miss and taken from the cache on a hit is an opening
when the cache holds one. -/
theorem IsOpening.of_hit {f : FieldType} {numel : ℕ} {x : Fin N → NdArrayRef}
    {m : Fin N → ℕ → ℕ} {mx : Prop} {X o : Fin N → NdArrayRef}
    (h : ∀ i, (mx → IsOpening f numel x m i (X i)) ∧ (¬mx → X i = o i))
    (ho : ¬mx → ∀ i, IsOpening f numel x m i (o i)) (i : Fin N) :
    IsOpening f numel x m i (X i) := by
  by_cases hm : mx
  · exact (h i).1 hm
  · exact (h i).2 hm ▸ ho hm i

/-- An all-reduce of `x - a` opens every element. -/
theorem isOpening_reduceAdd {f : FieldType} {x a : Fin N → NdArrayRef}
    (hx : ∀ i, (x i).eltype.field = f) (numel : ℕ) (i : Fin N) :
    IsOpening f numel x (fun j => (a j).data) i (reduceAdd (fun j => (x j).sub (a j)) i) :=
  ⟨rfl, rfl, fun idx _ => by
    simp only [reduceAdd_data, sub_eltype, hx, ZMod.natCast_mod, Nat.cast_sum,
      sub_data_cast' x a hx]⟩

/-- The two halves of the batched opening of `x - a` and `y - b`. -/
theorem isOpening_batched {f : FieldType} {sx sy : Shape} {x y a b : Fin N → NdArrayRef}
    (hx : ∀ i, (x i).eltype.field = f) (hy : ∀ i, (y i).eltype.field = f)
    (hxs : ∀ i, (x i).shape = sx) (i : Fin N) :
    let C := fun j => concat ((x j).sub (a j)) ((y j).sub (b j))
    IsOpening f sx.prod x (fun j => (a j).data) i
        (ofFun (x i).eltype (x i).shape (reduceAdd C i).data) ∧
      IsOpening f sy.prod y (fun j => (b j).data) i
        (ofFun (y i).eltype (y i).shape fun idx => (reduceAdd C i).data ((x i).numel + idx)) := by
  have hn : ∀ j, ((x j).sub (a j)).numel = sx.prod := fun j => by simp [numel, hxs]
  have hn' : (x i).numel = sx.prod := by simp [numel, hxs]
  refine ⟨⟨rfl, rfl, fun idx hidx => ?_⟩, ⟨rfl, rfl, fun idx _ => ?_⟩⟩
  · simp only [ofFun_data_cast (hx i), reduceAdd_data, concat, ofFun_eltype, sub_eltype, hx,
      ofFun_data, hn, if_pos hidx, ZMod.natCast_mod, Nat.cast_sum, sub_data_cast' x a hx]
  · simp only [ofFun_data_cast (hy i), reduceAdd_data, concat, ofFun_eltype, sub_eltype, hx,
      hy, ofFun_data, hn, hn', add_lt_iff_neg_left, not_lt_zero', if_false,
      Nat.add_sub_cancel_left, ZMod.natCast_mod, Nat.cast_sum, sub_data_cast' y b hy]

/-- The openings `MulOpen` sends when `mx` and `my` say whether `x` and `y` miss the cache
on every party: the batched round when both miss and `seq` (vectorization disabled) is off,
otherwise one round for each miss. -/
def openMsgs (seq : Bool) (mx my : Prop) [Decidable mx] [Decidable my]
    (x y a b : Fin N → NdArrayRef) : List (Msg N) :=
  if seq = false ∧ mx ∧ my then [.allReduce fun i => concat ((x i).sub (a i)) ((y i).sub (b i))]
  else (if mx then [.allReduce fun i => (x i).sub (a i)] else []) ++
    if my then [.allReduce fun i => (y i).sub (b i)] else []

/-! ## The lookups, the draw and the stores -/

/-- The lookups of `MulOpen`: the entries party `i` reads for `x` and `y`, the second after
the aliasing guard. -/
def openEntries (c : BeaverCache) (x y : NdArrayRef) (mmul : Bool) : Cache × Cache :=
  (c.getCache x mmul, aliasGuard x y (c.getCache x mmul) (c.getCache y mmul))

/-- The descriptors `MulOpen` hands the Beaver source: those of the entries it looks up. -/
def openDescs (s : Sys N) (x y : Fin N → NdArrayRef) (mmul : Bool) :
    (Fin N → Option ReplayDesc) × (Fin N → Option ReplayDesc) :=
  (fun i => (openEntries (s.cache i) (x i) (y i) mmul).1.desc?,
    fun i => (openEntries (s.cache i) (x i) (y i) mmul).2.desc?)

/-- The triple `MulOpen` draws from `s` for an elementwise product: the Beaver source's
answer to the descriptors of the entries the parties look up. -/
def mulDraw (W : World N) (s : Sys N) (x y : Fin N → NdArrayRef) :
    Fin N → (ℕ → ℕ) × (ℕ → ℕ) × (ℕ → ℕ) :=
  W.mul s.draws (openDescs s x y false).1 (openDescs s x y false).2

/-- The triple `MulOpen` draws from `s` for a matrix product, asked for with each party's
dimensions `(rows x, cols y, cols x)`. -/
def dotDraw (W : World N) (s : Sys N) (x y : Fin N → NdArrayRef) :
    Fin N → (ℕ → ℕ) × (ℕ → ℕ) × (ℕ → ℕ) :=
  W.dot s.draws (fun i => ((x i).shape.getD 0 0, (y i).shape.getD 1 0, (x i).shape.getD 1 0))
    (openDescs s x y true).1 (openDescs s x y true).2

/-- On operands of one shape on every party, the dimensions asked for are those shapes'. -/
theorem dotDraw_of_shapes (W : World N) (s : Sys N) {x y : Fin N → NdArrayRef} {m n p : ℕ}
    (hxs : ∀ i, (x i).shape = [m, n]) (hys : ∀ i, (y i).shape = [n, p]) :
    dotDraw W s x y =
      W.dot s.draws (fun _ => (m, p, n)) (openDescs s x y true).1 (openDescs s x y true).2 := by
  simp only [dotDraw, hxs, hys, List.getD_cons_zero, List.getD_cons_succ]

/-- The entries `MulOpen` stores from: those it looked up, with the masks `ma` and `mb` of
the draw recorded into a descriptor still `Init`. -/
def drawnEntries (c : BeaverCache) (x y : NdArrayRef) (mmul : Bool) (ma mb : Buffer) :
    Cache × Cache :=
  ((openEntries c x y mmul).1.withDesc (record (openEntries c x y mmul).1.desc? ma),
    (openEntries c x y mmul).2.withDesc (record (openEntries c x y mmul).2.desc? mb))

/-- What `storeOpen` leaves in a party's cache. -/
def BeaverCache.store (c : BeaverCache) (x : NdArrayRef) (mmul : Bool) (xc : Cache)
    (o : NdArrayRef) : BeaverCache :=
  if xc.enabled ∧ xc.replay_desc.status = .Init then c.setCache x mmul xc.replay_desc o else c

/-- What `MulOpen`'s two stores leave in a party's cache. -/
def mulStores (c : BeaverCache) (x y : NdArrayRef) (mmul : Bool) (ma mb : Buffer)
    (X Y : NdArrayRef) : BeaverCache :=
  (c.store x mmul (drawnEntries c x y mmul ma mb).1 X).store y mmul
    (drawnEntries c x y mmul ma mb).2 Y

/-- Operands of no identity are never stored. -/
theorem mulStores_of_buf_none (c : BeaverCache) {x y : NdArrayRef} (hx : x.buf = none)
    (hy : y.buf = none) (mmul : Bool) (ma mb : Buffer) (X Y : NdArrayRef) :
    mulStores c x y mmul ma mb X Y = c := by
  simp [mulStores, BeaverCache.store, drawnEntries, openEntries, aliasGuard, Cache.withDesc,
    BeaverCache.getCache_of_buf_none _ hx, BeaverCache.getCache_of_buf_none _ hy,
    BeaverCache.disabledEntry]

variable [NeZero N] (W : World N) {α : Type}

/-! ## The phases of `MulOpen` -/

/-- Looking an operand up leaves every cache as it was. -/
theorem run_getCache (fuel : ℕ) (s : Sys N) (x : Fin N → NdArrayRef) (mmul : Bool)
    (k : Fin N → Cache → Prog α) :
    run W (fuel + 1) s (fun i => (getCache (x i) mmul).bind (k i)) =
      run W fuel s fun i => k i ((s.cache i).getCache (x i) mmul) := by
  simp only [getCache, Prog.req_bind]
  rw [run_cache W fuel s (fun i => .getCache (x i) mmul) _
    (fun i c => (.cache (c.getCache (x i) mmul), c)) fun _ => rfl]
  rfl

/-- The elementwise triple: one draw from the Beaver source, whose buffers pass the size
checks. -/
theorem run_mulTriple (fuel : ℕ) (s : Sys N) (f : Fin N → FieldType) (x y : Fin N → NdArrayRef)
    (z_shape : Fin N → Shape) (dx dy : Fin N → Option ReplayDesc)
    (k : Fin N → (NdArrayRef × NdArrayRef × NdArrayRef) × Option ReplayDesc × Option ReplayDesc →
      Prog α) :
    run W (fuel + 1) s
        (fun i => (mulTriple (f i) (x i) (y i) (z_shape i) false (dx i) (dy i)).bind (k i)) =
      run W fuel { s with draws := s.draws + 1 } fun i =>
        k i ((ofFun (x i).eltype (x i).shape (W.mul s.draws dx dy i).1,
            ofFun (y i).eltype (y i).shape (W.mul s.draws dx dy i).2.1,
            ofFun (x i).eltype (x i).shape (W.mul s.draws dx dy i).2.2),
          record (dx i) (mkBuffer (f i) (x i).numel (W.mul s.draws dx dy i).1),
          record (dy i) (mkBuffer (f i) (x i).numel (W.mul s.draws dx dy i).2.1)) := by
  simp only [mulTriple, Bool.false_eq_true, if_false, beaverMul, Prog.bind_eq, Prog.req_bind]
  rw [run_req W fuel s _ _ _ _ (respond_beaverMul W s f (fun i => (x i).numel) dx dy)
    fun _ => rfl]
  simp [mkBuffer, unflattenBuffer]

/-- The Beaver source leaves the status of a descriptor as it was. -/
@[simp] theorem withDesc_record_status (c : Cache) (m : Buffer) :
    (c.withDesc (record c.desc? m)).replay_desc.status = c.replay_desc.status := by
  unfold Cache.withDesc Cache.desc? record
  split_ifs <;> simp_all
  split_ifs <;> simp_all

@[simp] theorem withDesc_enabled (c : Cache) (d : Option ReplayDesc) :
    (c.withDesc d).enabled = c.enabled := rfl

@[simp] theorem aliasGuard_status (x y : NdArrayRef) (xc yc : Cache) :
    (aliasGuard x y xc yc).replay_desc.status = yc.replay_desc.status := by
  unfold aliasGuard
  split_ifs <;> rfl

@[simp] theorem withDesc_open_cache (c : Cache) (d : Option ReplayDesc) :
    (c.withDesc d).open_cache = c.open_cache := rfl

@[simp] theorem aliasGuard_open_cache (x y : NdArrayRef) (xc yc : Cache) :
    (aliasGuard x y xc yc).open_cache = yc.open_cache := by
  unfold aliasGuard
  split_ifs <;> rfl

/-- A store is one local cache operation, or none, and leaves `BeaverCache.store` behind. -/
theorem localRun_storeOpen_store {n : ℕ} (x : NdArrayRef) (mmul : Bool) (xc : Cache)
    (o : NdArrayRef) {k : Unit → Prog α} {r : α × BeaverCache} (c : BeaverCache)
    (h : (k ()).localRun n (c.store x mmul xc o) = some r) :
    ((storeOpen x mmul xc o).bind k).localRun (n + 1) c = some r := by
  unfold storeOpen
  unfold BeaverCache.store at h
  split_ifs at h ⊢
  · exact h
  · exact Prog.localRun_succ h

/-- The dot triple for an `m × n` by `n × p` product. -/
theorem run_mulTriple_dot (fuel : ℕ) (s : Sys N) (f : Fin N → FieldType)
    (x y : Fin N → NdArrayRef) (m n p : ℕ) (hxs : ∀ i, (x i).shape = [m, n])
    (hys : ∀ i, (y i).shape = [n, p]) (dx dy : Fin N → Option ReplayDesc)
    (k : Fin N → (NdArrayRef × NdArrayRef × NdArrayRef) × Option ReplayDesc × Option ReplayDesc →
      Prog α) :
    run W (fuel + 1) s
        (fun i => (mulTriple (f i) (x i) (y i) [m, p] true (dx i) (dy i)).bind (k i)) =
      run W fuel { s with draws := s.draws + 1 } fun i =>
        let t := W.dot s.draws (fun _ => (m, p, n)) dx dy i
        k i ((ofFun (x i).eltype [m, n] t.1, ofFun (y i).eltype [n, p] t.2.1,
            ofFun (x i).eltype [m, p] t.2.2),
          record (dx i) (mkBuffer (f i) (m * n) t.1),
          record (dy i) (mkBuffer (f i) (n * p) t.2.1)) := by
  simp only [mulTriple, if_true, beaverDot, hxs, hys, List.getD_cons_succ, List.getD_cons_zero,
    Prog.bind_eq, Prog.req_bind]
  rw [run_req W fuel s _ _ _ _
    (respond_beaverDot W s f (fun _ => m) (fun _ => p) (fun _ => n) dx dy) fun _ => rfl]
  simp [mkBuffer, unflattenBuffer, numel, hxs, hys, Nat.mul_comm]

/-- One operand opened against the cache: the stored opening `o` on a hit, an all-reduce of
`u` on a miss, every party hitting or every party missing. -/
theorem run_openSingle (mx : Prop) [Decidable mx] (o u : Fin N → NdArrayRef)
    (k : Fin N → NdArrayRef → Prog α) (fuel : ℕ) (s : Sys N) :
    run W (fuel + 1) s (fun i => if ¬mx then k i (o i) else (allReduce (u i)).bind (k i)) =
      run W (fuel + if mx then 0 else 1)
        { s with trace := s.trace ++ if mx then [.allReduce u] else [] }
        fun i => k i (if mx then reduceAdd u i else o i) := by
  by_cases hmx : mx
  · simp only [hmx, not_true_eq_false, if_false, if_true, add_zero]
    exact run_allReduce W fuel s u k
  · simp only [hmx, not_false_eq_true, if_true, if_false, List.append_nil]

/-- `openMasked` when each operand hits on every party or on none: every party gets the
stored opening of an operand that hits and an all-reduce of `x - a` (or `y - b`) for one that
misses, and exactly `openMsgs` goes on the wire. -/
theorem run_openMasked (cfg : RuntimeConfig) (f : FieldType) (sx sy : Shape)
    (x y a b : Fin N → NdArrayRef) (xc yc : Fin N → Cache) (s : Sys N) (mx my : Prop)
    [Decidable mx] [Decidable my]
    (hsx : ∀ i, (xc i).replay_desc.status = .Init ↔ mx)
    (hsy : ∀ i, (yc i).replay_desc.status = .Init ↔ my)
    (hx : ∀ i, (x i).eltype.field = f) (hy : ∀ i, (y i).eltype.field = f)
    (hxs : ∀ i, (x i).shape = sx) (hys : ∀ i, (y i).shape = sy)
    (ha : ∀ i, (a i).eltype.field = f ∧ (a i).shape = sx)
    (hb : ∀ i, (b i).eltype.field = f ∧ (b i).shape = sy) :
    ∃ (X Y : Fin N → NdArrayRef) (m : ℕ),
      (∀ i, (mx → IsOpening f sx.prod x (fun j => (a j).data) i (X i)) ∧
        (¬mx → X i = (xc i).open_cache) ∧
        (my → IsOpening f sy.prod y (fun j => (b j).data) i (Y i)) ∧
        (¬my → Y i = (yc i).open_cache)) ∧
      ∀ {β : Type} (k : Fin N → NdArrayRef × NdArrayRef → Prog β) (fuel : ℕ),
        run W (fuel + 2) s
            (fun i => (openMasked (cfg.ctx N i) (x i) (y i) (a i) (b i) (xc i) (yc i)).bind (k i)) =
          run W (fuel + m)
            { s with
              trace := s.trace ++ openMsgs cfg.experimental_disable_vectorization mx my x y a b }
            fun i => k i (X i, Y i) := by
  have hxa : ∀ i, ringSub (x i) (a i) = .ok ((x i).sub (a i)) := fun i =>
    ringSub_ok (by rw [hx, (ha i).1]) (by rw [hxs, (ha i).2])
  have hyb : ∀ i, ringSub (y i) (b i) = .ok ((y i).sub (b i)) := fun i =>
    ringSub_ok (by rw [hy, (hb i).1]) (by rw [hys, (hb i).2])
  simp only [openMasked, hsx, hsy, ne_eq, RuntimeConfig.ctx_config, Prog.bind_eq,
    Prog.bind_assoc, Prog.pure_bind, Prog.monadLift_eq, Prog.liftM_eq, hxa, hyb,
    Prog.ofExcept_ok, vmapOpen]
  by_cases hmx : mx <;> by_cases hmy : my
  · cases hv : cfg.experimental_disable_vectorization
    · -- both miss, one batched round
      refine ⟨fun i => ofFun (x i).eltype (x i).shape
          (reduceAdd (fun j => concat ((x j).sub (a j)) ((y j).sub (b j))) i).data,
        fun i => ofFun (y i).eltype (y i).shape fun idx =>
          (reduceAdd (fun j => concat ((x j).sub (a j)) ((y j).sub (b j))) i).data
            ((x i).numel + idx), 1,
        fun i => ⟨fun _ => (@isOpening_batched _ _ _ sy _ _ a b hx hy hxs i).1,
          fun h => absurd hmx h,
          fun _ => (@isOpening_batched _ _ _ sy _ _ a b hx hy hxs i).2,
          fun h => absurd hmy h⟩,
        fun k fuel => ?_⟩
      simp only [hmx, hmy, openMsgs, not_true_eq_false, or_false, Bool.false_eq_true, if_false,
        and_self, if_true, Prog.bind_assoc, Prog.pure_bind, sub_eltype, sub_shape]
      rw [run_allReduce]
      rfl
    · -- both miss, vectorization disabled: two rounds
      refine ⟨reduceAdd fun j => (x j).sub (a j), reduceAdd fun j => (y j).sub (b j), 0,
        fun i => ⟨fun _ => isOpening_reduceAdd hx _ i, fun h => absurd hmx h,
          fun _ => isOpening_reduceAdd hy _ i, fun h => absurd hmy h⟩, fun k fuel => ?_⟩
      simp only [hmx, hmy, openMsgs, not_true_eq_false, or_false, true_or, Bool.true_eq_false,
        if_false, false_and, and_self, if_true, Prog.bind_assoc, Prog.pure_bind, Prog.pure_eq]
      rw [run_allReduce, run_allReduce]
      simp
  · -- `y` hits
    refine ⟨reduceAdd fun j => (x j).sub (a j), fun i => (yc i).open_cache, 1,
      fun i => ⟨fun _ => isOpening_reduceAdd hx _ i, fun h => absurd hmx h,
        fun h => absurd h hmy, fun _ => rfl⟩, fun k fuel => ?_⟩
    simp only [hmx, hmy, openMsgs, not_true_eq_false, not_false_eq_true, or_true, or_false,
      true_or, if_false, if_true, false_and, and_false, Prog.bind_assoc, Prog.pure_bind,
      Prog.pure_eq, List.append_nil]
    rw [run_allReduce]
  · -- `x` hits
    refine ⟨fun i => (xc i).open_cache, reduceAdd fun j => (y j).sub (b j), 1,
      fun i => ⟨fun h => absurd h hmx, fun _ => rfl, fun _ => isOpening_reduceAdd hy _ i,
        fun h => absurd hmy h⟩, fun k fuel => ?_⟩
    simp only [hmx, hmy, openMsgs, not_true_eq_false, not_false_eq_true, or_true, or_false,
      true_or, if_false, if_true, false_and, and_false, Prog.bind_assoc, Prog.pure_bind,
      Prog.pure_eq, List.nil_append]
    rw [run_allReduce]
  · -- both hit: nothing is sent
    refine ⟨fun i => (xc i).open_cache, fun i => (yc i).open_cache, 2,
      fun i => ⟨fun h => absurd h hmx, fun _ => rfl, fun h => absurd h hmy, fun _ => rfl⟩,
      fun k fuel => ?_⟩
    simp only [hmx, hmy, openMsgs, not_true_eq_false, not_false_eq_true, or_true, or_false,
      true_or, if_false, if_true, false_and, and_false, Prog.bind_assoc, Prog.pure_bind,
      Prog.pure_eq, List.nil_append, List.append_nil]

/-! ## `MulOpen` -/

/-- `MulOpen` for an elementwise product, with each operand hitting the cache on every party
or on none: one draw, the openings of `openMasked` against the masks of the draw, and then
the stores, local to each party. -/
theorem run_MulOpen (cfg : RuntimeConfig) (s : Sys N) (f : FieldType) (sh : Shape)
    (x y : Fin N → NdArrayRef) (hx : ∀ i, (x i).eltype.field = f)
    (hy : ∀ i, (y i).eltype.field = f) (hxs : ∀ i, (x i).shape = sh)
    (hys : ∀ i, (y i).shape = sh) (mx my : Prop) [Decidable mx] [Decidable my]
    (hsx : ∀ i, ((s.cache i).getCache (x i) false).replay_desc.status = .Init ↔ mx)
    (hsy : ∀ i, ((s.cache i).getCache (y i) false).replay_desc.status = .Init ↔ my) :
    ∃ (X Y : Fin N → NdArrayRef) (m : ℕ),
      (∀ i, (mx → IsOpening f sh.prod x (fun j => (mulDraw W s x y j).1) i (X i)) ∧
        (¬mx → X i = ((s.cache i).getCache (x i) false).open_cache) ∧
        (my → IsOpening f sh.prod y (fun j => (mulDraw W s x y j).2.1) i (Y i)) ∧
        (¬my → Y i = ((s.cache i).getCache (y i) false).open_cache)) ∧
      ∀ {β : Type} (k : Fin N → NdArrayRef × NdArrayRef × NdArrayRef × NdArrayRef × NdArrayRef →
        Prog β) (fuel : ℕ),
        run W (fuel + 5) s (fun i => (MulOpen (cfg.ctx N i) (x i) (y i) false).bind (k i)) =
          run W (fuel + m) { s with
            draws := s.draws + 1
            trace := s.trace ++ openMsgs cfg.experimental_disable_vectorization mx my x y
              (fun i => ofFun (x i).eltype sh (mulDraw W s x y i).1)
              (fun i => ofFun (y i).eltype sh (mulDraw W s x y i).2.1) } fun i =>
            (storeOpen (x i) false (drawnEntries (s.cache i) (x i) (y i) false
                (mkBuffer f sh.prod (mulDraw W s x y i).1)
                (mkBuffer f sh.prod (mulDraw W s x y i).2.1)).1 (X i)).bind fun _ =>
              (storeOpen (y i) false (drawnEntries (s.cache i) (x i) (y i) false
                  (mkBuffer f sh.prod (mulDraw W s x y i).1)
                  (mkBuffer f sh.prod (mulDraw W s x y i).2.1)).2 (Y i)).bind fun _ =>
                k i (ofFun (x i).eltype sh (mulDraw W s x y i).1,
                  ofFun (y i).eltype sh (mulDraw W s x y i).2.1,
                  ofFun (x i).eltype sh (mulDraw W s x y i).2.2, X i, Y i) := by
  let t := mulDraw W s x y
  let a := fun i => ofFun (x i).eltype sh (t i).1
  let b := fun i => ofFun (y i).eltype sh (t i).2.1
  let e := fun i => drawnEntries (s.cache i) (x i) (y i) false (mkBuffer f sh.prod (t i).1)
    (mkBuffer f sh.prod (t i).2.1)
  obtain ⟨X, Y, m, hXY, hrun⟩ := run_openMasked W cfg f sh sh x y a b (fun i => (e i).1)
    (fun i => (e i).2) { s with draws := s.draws + 1 } mx my
    (fun i => by simp [e, drawnEntries, openEntries, hsx])
    (fun i => by simp [e, drawnEntries, openEntries, hsy]) hx hy hxs hys
    (fun i => ⟨by simp [a, hx], rfl⟩) (fun i => ⟨by simp [b, hy], rfl⟩)
  have hma : ∀ j idx, (((a j).data idx : ℕ) : ZMod (2 ^ f.width)) = (t j).1 idx :=
    fun j idx => by simp [a, hx]
  have hmb : ∀ j idx, (((b j).data idx : ℕ) : ZMod (2 ^ f.width)) = (t j).2.1 idx :=
    fun j idx => by simp [b, hy]
  refine ⟨X, Y, m, fun i => ?_, fun k fuel => ?_⟩
  · obtain ⟨h1, h2, h3, h4⟩ := hXY i
    exact ⟨fun h => (IsOpening.mask_congr hma).mp (h1 h),
      fun h => by simpa [e, drawnEntries, openEntries] using h2 h,
      fun h => (IsOpening.mask_congr hmb).mp (h3 h),
      fun h => by simpa [e, drawnEntries, openEntries] using h4 h⟩
  · simp only [MulOpen, Prog.bind_eq, Prog.bind_assoc]
    rw [run_getCache, run_getCache]
    conv_lhs => simp only [mulShape, hxs, hys, Bool.false_eq_true, if_false, decide_True,
      enforce_true, Prog.bind_eq, Prog.pure_eq, Prog.pure_bind, Prog.bind_assoc]
    rw [run_mulTriple]
    simpa only [numel, hx, hxs, hys] using hrun (fun i o =>
      (storeOpen (x i) false (e i).1 o.1).bind fun _ =>
        (storeOpen (y i) false (e i).2 o.2).bind fun _ =>
          k i (a i, b i, ofFun (x i).eltype sh (t i).2.2, o.1, o.2)) fuel

/-- `MulOpen` for a matrix product of an `m × n` and an `n × p` operand, each hitting the
cache on every party or on none. -/
theorem run_MulOpen_dot (cfg : RuntimeConfig) (s : Sys N) (f : FieldType) (m n p : ℕ)
    (x y : Fin N → NdArrayRef) (hx : ∀ i, (x i).eltype.field = f)
    (hy : ∀ i, (y i).eltype.field = f) (hxs : ∀ i, (x i).shape = [m, n])
    (hys : ∀ i, (y i).shape = [n, p]) (mx my : Prop) [Decidable mx] [Decidable my]
    (hsx : ∀ i, ((s.cache i).getCache (x i) true).replay_desc.status = .Init ↔ mx)
    (hsy : ∀ i, ((s.cache i).getCache (y i) true).replay_desc.status = .Init ↔ my) :
    ∃ (X Y : Fin N → NdArrayRef) (r : ℕ),
      (∀ i, (mx → IsOpening f (m * n) x (fun j => (dotDraw W s x y j).1) i (X i)) ∧
        (¬mx → X i = ((s.cache i).getCache (x i) true).open_cache) ∧
        (my → IsOpening f (n * p) y (fun j => (dotDraw W s x y j).2.1) i (Y i)) ∧
        (¬my → Y i = ((s.cache i).getCache (y i) true).open_cache)) ∧
      ∀ {β : Type} (k : Fin N → NdArrayRef × NdArrayRef × NdArrayRef × NdArrayRef × NdArrayRef →
        Prog β) (fuel : ℕ),
        run W (fuel + 5) s (fun i => (MulOpen (cfg.ctx N i) (x i) (y i) true).bind (k i)) =
          run W (fuel + r) { s with
            draws := s.draws + 1
            trace := s.trace ++ openMsgs cfg.experimental_disable_vectorization mx my x y
              (fun i => ofFun (x i).eltype [m, n] (dotDraw W s x y i).1)
              (fun i => ofFun (y i).eltype [n, p] (dotDraw W s x y i).2.1) } fun i =>
            (storeOpen (x i) true (drawnEntries (s.cache i) (x i) (y i) true
                (mkBuffer f (m * n) (dotDraw W s x y i).1)
                (mkBuffer f (n * p) (dotDraw W s x y i).2.1)).1 (X i)).bind fun _ =>
              (storeOpen (y i) true (drawnEntries (s.cache i) (x i) (y i) true
                  (mkBuffer f (m * n) (dotDraw W s x y i).1)
                  (mkBuffer f (n * p) (dotDraw W s x y i).2.1)).2 (Y i)).bind fun _ =>
                k i (ofFun (x i).eltype [m, n] (dotDraw W s x y i).1,
                  ofFun (y i).eltype [n, p] (dotDraw W s x y i).2.1,
                  ofFun (x i).eltype [m, p] (dotDraw W s x y i).2.2, X i, Y i) := by
  rw [dotDraw_of_shapes W s hxs hys]
  let t := W.dot s.draws (fun _ => (m, p, n)) (openDescs s x y true).1 (openDescs s x y true).2
  let a := fun i => ofFun (x i).eltype [m, n] (t i).1
  let b := fun i => ofFun (y i).eltype [n, p] (t i).2.1
  let e := fun i => drawnEntries (s.cache i) (x i) (y i) true (mkBuffer f (m * n) (t i).1)
    (mkBuffer f (n * p) (t i).2.1)
  obtain ⟨X, Y, r, hXY, hrun⟩ := run_openMasked W cfg f [m, n] [n, p] x y a b
    (fun i => (e i).1) (fun i => (e i).2) { s with draws := s.draws + 1 } mx my
    (fun i => by simp [e, drawnEntries, openEntries, hsx])
    (fun i => by simp [e, drawnEntries, openEntries, hsy]) hx hy hxs hys
    (fun i => ⟨by simp [a, hx], rfl⟩) (fun i => ⟨by simp [b, hy], rfl⟩)
  have hma : ∀ j idx, (((a j).data idx : ℕ) : ZMod (2 ^ f.width)) = (t j).1 idx :=
    fun j idx => by simp [a, hx]
  have hmb : ∀ j idx, (((b j).data idx : ℕ) : ZMod (2 ^ f.width)) = (t j).2.1 idx :=
    fun j idx => by simp [b, hy]
  have hmn : ∀ u v : ℕ, [u, v].prod = u * v := fun u v => by simp
  refine ⟨X, Y, r, fun i => ?_, fun k fuel => ?_⟩
  · obtain ⟨h1, h2, h3, h4⟩ := hXY i
    exact ⟨fun h => hmn m n ▸ (IsOpening.mask_congr hma).mp (h1 h),
      fun h => by simpa [e, drawnEntries, openEntries] using h2 h,
      fun h => hmn n p ▸ (IsOpening.mask_congr hmb).mp (h3 h),
      fun h => by simpa [e, drawnEntries, openEntries] using h4 h⟩
  · simp only [MulOpen, Prog.bind_eq, Prog.bind_assoc]
    rw [run_getCache, run_getCache]
    conv_lhs => simp only [mulShape, hxs, hys, if_true, List.getD_cons_succ, List.getD_cons_zero,
      decide_True, enforce_true, Prog.bind_eq, Prog.pure_eq, Prog.pure_bind, Prog.bind_assoc]
    rw [run_mulTriple_dot W _ _ _ x y m n p hxs hys]
    simpa only [hx] using hrun (fun i o => (storeOpen (x i) true (e i).1 o.1).bind fun _ =>
      (storeOpen (y i) true (e i).2 o.2).bind fun _ =>
        k i (a i, b i, ofFun (x i).eltype [m, p] (t i).2.2, o.1, o.2)) fuel

/-! ## `MulAA` -/

/-- `MulAA`'s run, party by party, on operands that each hit the cache on every party or on
none, whose cached openings have the operand's type and shape: one draw, the stores of
`mulStores`, and each output element `b (x - a) + a (y - b) + c`, plus `(x - a)(y - b)` on
rank 0, for the draw and the openings `X` and `Y` of `MulOpen`. -/
theorem run_MulAA_shares (cfg : RuntimeConfig) (s : Sys N) (f : FieldType) (sh : Shape)
    (x y : Fin N → NdArrayRef) (hx : ∀ i, (x i).eltype.field = f)
    (hy : ∀ i, (y i).eltype.field = f) (hxs : ∀ i, (x i).shape = sh)
    (hys : ∀ i, (y i).shape = sh) (mx my : Prop) [Decidable mx] [Decidable my]
    (hsx : ∀ i, ((s.cache i).getCache (x i) false).replay_desc.status = .Init ↔ mx)
    (hsy : ∀ i, ((s.cache i).getCache (y i) false).replay_desc.status = .Init ↔ my)
    (hox : ¬mx → ∀ i, ((s.cache i).getCache (x i) false).open_cache.eltype = (x i).eltype ∧
      ((s.cache i).getCache (x i) false).open_cache.shape = sh)
    (hoy : ¬my → ∀ i, ((s.cache i).getCache (y i) false).open_cache.eltype = (y i).eltype ∧
      ((s.cache i).getCache (y i) false).open_cache.shape = sh) (fuel : ℕ) :
    ∃ (X Y z : Fin N → NdArrayRef) (msgs : List (Msg N)),
      (∀ i, (mx → IsOpening f sh.prod x (fun j => (mulDraw W s x y j).1) i (X i)) ∧
        (¬mx → X i = ((s.cache i).getCache (x i) false).open_cache) ∧
        (my → IsOpening f sh.prod y (fun j => (mulDraw W s x y j).2.1) i (Y i)) ∧
        (¬my → Y i = ((s.cache i).getCache (y i) false).open_cache)) ∧
      run W (fuel + 8) s (fun i => MulAA.proc (cfg.ctx N i) (x i) (y i)) =
        .done z { s with
          draws := s.draws + 1
          trace := s.trace ++ msgs
          cache := fun i => mulStores (s.cache i) (x i) (y i) false
            (mkBuffer f sh.prod (mulDraw W s x y i).1)
            (mkBuffer f sh.prod (mulDraw W s x y i).2.1) (X i) (Y i) } ∧
      ∀ i, (z i).eltype = (x i).eltype ∧ (z i).shape = sh ∧ ∀ idx,
        ((z i).data idx : ZMod (2 ^ f.width)) = (mulDraw W s x y i).2.1 idx * (X i).data idx +
          (mulDraw W s x y i).1 idx * (Y i).data idx + (mulDraw W s x y i).2.2 idx +
          if (i : ℕ) = 0 then ((X i).data idx * (Y i).data idx : ZMod (2 ^ f.width)) else 0 := by
  obtain ⟨X, Y, m, hXY, hrun⟩ := run_MulOpen W cfg s f sh x y hx hy hxs hys mx my hsx hsy
  have hXt : ∀ i, (X i).eltype = (x i).eltype ∧ (X i).shape = sh := fun i => by
    by_cases h : mx
    · exact ⟨((hXY i).1 h).1, ((hXY i).1 h).2.1.trans (hxs i)⟩
    · rw [(hXY i).2.1 h]
      exact hox h i
  have hYt : ∀ i, (Y i).eltype = (y i).eltype ∧ (Y i).shape = sh := fun i => by
    by_cases h : my
    · exact ⟨((hXY i).2.2.1 h).1, ((hXY i).2.2.1 h).2.1.trans (hys i)⟩
    · rw [(hXY i).2.2.2 h]
      exact hoy h i
  let t := mulDraw W s x y
  let a := fun i => ofFun (x i).eltype sh (t i).1
  let b := fun i => ofFun (y i).eltype sh (t i).2.1
  let c := fun i => ofFun (x i).eltype sh (t i).2.2
  let w := fun i : Fin N => (((b i).mul (X i)).add ((a i).mul (Y i))).add (c i)
  let w' := fun i : Fin N => if (i : ℕ) = 0 then (w i).add ((X i).mul (Y i)) else w i
  have hw' : ∀ i, (x i).eltype.field = (w' i).eltype.field := fun i => by
    simp only [w', w]; split_ifs <;> simp [b, hx, hy]
  let z := fun i => (w' i).retype (x i).eltype (hw' i)
  refine ⟨X, Y, z, openMsgs cfg.experimental_disable_vectorization mx my x y a b, hXY, ?_,
    fun i => ⟨rfl, ?_, fun idx => ?_⟩⟩
  · simp only [MulAA.proc, Prog.bind_eq]
    rw [show fuel + 8 = fuel + 3 + 5 from rfl, hrun,
      show fuel + 3 + m = 2 + 1 + (fuel + m) by omega]
    refine run_local W 2 _ _ _ z _ fun i =>
      localRun_storeOpen_store _ _ _ _ _ (localRun_storeOpen_store _ _ _ _ _ ?_)
    obtain ⟨hXe, hXs⟩ := hXt i
    obtain ⟨hYe, hYs⟩ := hYt i
    simp [a, b, c, hXe, hYe, hx, hy, hXs, hYs, hxs, hys]
    simp only [z, w', w]
    split_ifs <;> exact ⟨rfl, rfl⟩
  · simp only [z, w', w]
    split_ifs <;> rfl
  · have hXf : (X i).eltype.field = f := by rw [(hXt i).1, hx]
    simp only [z, w', w, a, b, c, retype_data, ite_data, ite_apply, Nat.cast_ite,
      add_data_cast, mul_data_cast, add_eltype, mul_eltype, ofFun_eltype, hx, hy,
      ofFun_data_cast (hx i), ofFun_data_cast (hy i), mul_data_cast _ _ _ hXf]
    split_ifs <;> simp

/-- `MulAA` on operands that each hit the cache on every party or on none, with every cached
opening an opening of the operand against the masks the draw returns: one draw, the stores
of `mulStores`, and outputs that share `x * y` when the draw is a triple. -/
theorem run_MulAA (cfg : RuntimeConfig) (s : Sys N) (f : FieldType) (sh : Shape)
    (x y : Fin N → NdArrayRef) (hx : ∀ i, (x i).eltype.field = f)
    (hy : ∀ i, (y i).eltype.field = f) (hxs : ∀ i, (x i).shape = sh)
    (hys : ∀ i, (y i).shape = sh) (mx my : Prop) [Decidable mx] [Decidable my]
    (hsx : ∀ i, ((s.cache i).getCache (x i) false).replay_desc.status = .Init ↔ mx)
    (hsy : ∀ i, ((s.cache i).getCache (y i) false).replay_desc.status = .Init ↔ my)
    (hox : ¬mx → ∀ i, IsOpening f sh.prod x (fun j => (mulDraw W s x y j).1) i
      ((s.cache i).getCache (x i) false).open_cache)
    (hoy : ¬my → ∀ i, IsOpening f sh.prod y (fun j => (mulDraw W s x y j).2.1) i
      ((s.cache i).getCache (y i) false).open_cache) (fuel : ℕ) :
    ∃ (X Y z : Fin N → NdArrayRef) (msgs : List (Msg N)),
      (∀ i, IsOpening f sh.prod x (fun j => (mulDraw W s x y j).1) i (X i) ∧
        IsOpening f sh.prod y (fun j => (mulDraw W s x y j).2.1) i (Y i)) ∧
      run W (fuel + 8) s (fun i => MulAA.proc (cfg.ctx N i) (x i) (y i)) =
        .done z { s with
          draws := s.draws + 1
          trace := s.trace ++ msgs
          cache := fun i => mulStores (s.cache i) (x i) (y i) false
            (mkBuffer f sh.prod (mulDraw W s x y i).1)
            (mkBuffer f sh.prod (mulDraw W s x y i).2.1) (X i) (Y i) } ∧
      (MulTriple W f s.draws sh.prod →
        ∀ idx < sh.prod, reconstruct f z idx = reconstruct f x idx * reconstruct f y idx) := by
  obtain ⟨X, Y, z, msgs, hXY, hrun, hz⟩ := run_MulAA_shares W cfg s f sh x y hx hy hxs hys mx my
    hsx hsy (fun h i => ⟨(hox h i).1, (hox h i).2.1.trans (hxs i)⟩)
    (fun h i => ⟨(hoy h i).1, (hoy h i).2.1.trans (hys i)⟩) fuel
  have hX := IsOpening.of_hit (fun i => ⟨(hXY i).1, (hXY i).2.1⟩) hox
  have hY := IsOpening.of_hit (fun i => ⟨(hXY i).2.2.1, (hXY i).2.2.2⟩) hoy
  refine ⟨X, Y, z, msgs, fun i => ⟨hX i, hY i⟩, hrun, fun hW idx hidx => ?_⟩
  let t := mulDraw W s x y
  have hXi : ∀ i, ((X i).data idx : ZMod (2 ^ f.width)) =
      reconstruct f x idx - ∑ j, ((t j).1 idx : ZMod _) := fun i => by
    rw [(hX i).2.2 idx hidx, Finset.sum_sub_distrib]; rfl
  have hYi : ∀ i, ((Y i).data idx : ZMod (2 ^ f.width)) =
      reconstruct f y idx - ∑ j, ((t j).2.1 idx : ZMod _) := fun i => by
    rw [(hY i).2.2 idx hidx, Finset.sum_sub_distrib]; rfl
  have hzi : ∀ i, _ := fun i => (hz i).2.2 idx
  have htriple : (∑ i, ((t i).1 idx : ZMod (2 ^ f.width))) * ∑ i, ((t i).2.1 idx : ZMod _) =
      ∑ i, ((t i).2.2 idx : ZMod _) := hW _ _ idx hidx
  simp only [reconstruct, hzi, hXi, hYi]
  rw [Finset.sum_add_distrib, sum_ite_rank 0 (NeZero.pos N), Finset.sum_add_distrib,
    Finset.sum_add_distrib, ← Finset.sum_mul, ← Finset.sum_mul, ← htriple]
  ring

/-- `MulAA` reconstructs the product, for every number of parties: run on sharings of `x`
and `y` whose openings `MulOpen` makes by all-reduce, with a triple from the Beaver source,
the outputs share `x * y`. -/
theorem MulAA_reconstructs_product (cfg : RuntimeConfig) (s : Sys N) (f : FieldType)
    (sh : Shape) (x y : Fin N → NdArrayRef) (hx : ∀ i, (x i).eltype.field = f)
    (hy : ∀ i, (y i).eltype.field = f) (hxs : ∀ i, (x i).shape = sh)
    (hys : ∀ i, (y i).shape = sh)
    (hmiss : ∀ i, ((s.cache i).getCache (x i) false).replay_desc.status = .Init ∧
      ((s.cache i).getCache (y i) false).replay_desc.status = .Init)
    (hW : MulTriple W f s.draws sh.prod) (fuel : ℕ) :
    ∃ z s', run W (fuel + 8) s (fun i => MulAA.proc (cfg.ctx N i) (x i) (y i)) = .done z s' ∧
      ∀ idx < sh.prod, reconstruct f z idx = reconstruct f x idx * reconstruct f y idx := by
  obtain ⟨_, _, z, _, _, hrun, hz⟩ := run_MulAA W cfg s f sh x y hx hy hxs hys True True
    (fun i => iff_true_intro (hmiss i).1) (fun i => iff_true_intro (hmiss i).2)
    (fun h => absurd trivial h) (fun h => absurd trivial h) fuel
  exact ⟨z, _, hrun, hz hW⟩

theorem MulAA_product_two_parties :
    ∃ z s', run (World.replaying 2) (0 + 8) (Sys.init 2)
        (fun i => MulAA.proc ((⟨false, .FM64⟩ : RuntimeConfig).ctx 2 i)
          (ofFun (AShrTy .FM64) [2] fun idx => i + idx + 3)
          (ofFun (AShrTy .FM64) [2] fun idx => 5 * i + idx + 1)) = .done z s' ∧
      ∀ idx < [2].prod, reconstruct .FM64 z idx =
        reconstruct .FM64 (fun i : Fin 2 => ofFun (AShrTy .FM64) [2] fun idx => i + idx + 3) idx *
          reconstruct .FM64 (fun i : Fin 2 => ofFun (AShrTy .FM64) [2] fun idx =>
            5 * i + idx + 1) idx :=
  MulAA_reconstructs_product (World.replaying 2) ⟨false, .FM64⟩ (Sys.init 2) .FM64 [2]
    (fun i => ofFun (AShrTy .FM64) [2] fun idx => i + idx + 3)
    (fun i => ofFun (AShrTy .FM64) [2] fun idx => 5 * i + idx + 1)
    (fun _ => rfl) (fun _ => rfl) (fun _ => rfl) (fun _ => rfl) (fun _ => ⟨rfl, rfl⟩)
    (replaying_mulTriple _ _ _) 0

/-! ## `MatMulAA` -/

/-- Row `r < m` and column `l < n` of an `m × n` matrix index an element below `m * n`. -/
theorem index_lt_mul {r l m n : ℕ} (hr : r < m) (hl : l < n) : r * n + l < m * n :=
  calc r * n + l < (r + 1) * n := by rw [Nat.succ_mul]; omega
    _ ≤ m * n := Nat.mul_le_mul_right n hr

/-- `MatMulAA` on an `m × n` and an `n × p` operand that each hit the cache on every party or
on none, whatever the cached openings hold: one draw, the stores of `mulStores`, and on each
party the `m × p` output `(x - a) b + a (y - b) + c`, plus the product of the openings on
rank 0, read off the openings `X` and `Y` it used. -/
theorem run_MatMulAA_shares (cfg : RuntimeConfig) (s : Sys N) (f : FieldType) (m n p : ℕ)
    (x y : Fin N → NdArrayRef) (hx : ∀ i, (x i).eltype.field = f)
    (hy : ∀ i, (y i).eltype.field = f) (hxs : ∀ i, (x i).shape = [m, n])
    (hys : ∀ i, (y i).shape = [n, p]) (mx my : Prop) [Decidable mx] [Decidable my]
    (hsx : ∀ i, ((s.cache i).getCache (x i) true).replay_desc.status = .Init ↔ mx)
    (hsy : ∀ i, ((s.cache i).getCache (y i) true).replay_desc.status = .Init ↔ my)
    (hox : ¬mx → ∀ i, ((s.cache i).getCache (x i) true).open_cache.eltype = (x i).eltype ∧
      ((s.cache i).getCache (x i) true).open_cache.shape = [m, n])
    (hoy : ¬my → ∀ i, ((s.cache i).getCache (y i) true).open_cache.eltype = (y i).eltype ∧
      ((s.cache i).getCache (y i) true).open_cache.shape = [n, p]) (fuel : ℕ) :
    ∃ (X Y z : Fin N → NdArrayRef) (msgs : List (Msg N)),
      (∀ i, (mx → IsOpening f (m * n) x (fun j => (dotDraw W s x y j).1) i (X i)) ∧
        (¬mx → X i = ((s.cache i).getCache (x i) true).open_cache) ∧
        (my → IsOpening f (n * p) y (fun j => (dotDraw W s x y j).2.1) i (Y i)) ∧
        (¬my → Y i = ((s.cache i).getCache (y i) true).open_cache)) ∧
      run W (fuel + 8) s (fun i => MatMulAA.proc (cfg.ctx N i) (x i) (y i)) =
        .done z { s with
          draws := s.draws + 1
          trace := s.trace ++ msgs
          cache := fun i => mulStores (s.cache i) (x i) (y i) true
            (mkBuffer f (m * n) (dotDraw W s x y i).1)
            (mkBuffer f (n * p) (dotDraw W s x y i).2.1) (X i) (Y i) } ∧
      ∀ i, (z i).eltype = (x i).eltype ∧ (z i).shape = [m, p] ∧ ∀ r c, c < p →
        ((z i).data (r * p + c) : ZMod (2 ^ f.width)) =
          ∑ l ∈ Finset.range n, ((X i).data (r * n + l) : ZMod (2 ^ f.width)) *
              (dotDraw W s x y i).2.1 (l * p + c) +
            ∑ l ∈ Finset.range n, ((dotDraw W s x y i).1 (r * n + l) : ZMod (2 ^ f.width)) *
              (Y i).data (l * p + c) + (dotDraw W s x y i).2.2 (r * p + c) +
            if (i : ℕ) = 0 then ∑ l ∈ Finset.range n,
              ((X i).data (r * n + l) : ZMod (2 ^ f.width)) * (Y i).data (l * p + c) else 0 := by
  obtain ⟨X, Y, k, hXY, hrun⟩ := run_MulOpen_dot W cfg s f m n p x y hx hy hxs hys mx my hsx hsy
  have hXt : ∀ i, (X i).eltype = (x i).eltype ∧ (X i).shape = [m, n] := fun i => by
    by_cases h : mx
    · exact ⟨((hXY i).1 h).1, ((hXY i).1 h).2.1.trans (hxs i)⟩
    · rw [(hXY i).2.1 h]
      exact hox h i
  have hYt : ∀ i, (Y i).eltype = (y i).eltype ∧ (Y i).shape = [n, p] := fun i => by
    by_cases h : my
    · exact ⟨((hXY i).2.2.1 h).1, ((hXY i).2.2.1 h).2.1.trans (hys i)⟩
    · rw [(hXY i).2.2.2 h]
      exact hoy h i
  have hXf : ∀ i, (X i).eltype.field = f := fun i => by rw [(hXt i).1, hx]
  have hYf : ∀ i, (Y i).eltype.field = f := fun i => by rw [(hYt i).1, hy]
  let t := dotDraw W s x y
  let a := fun i => ofFun (x i).eltype [m, n] (t i).1
  let b := fun i => ofFun (y i).eltype [n, p] (t i).2.1
  let c := fun i => ofFun (x i).eltype [m, p] (t i).2.2
  let w := fun i : Fin N => (((X i).mmul (b i)).add ((a i).mmul (Y i))).add (c i)
  let w' := fun i : Fin N => if (i : ℕ) = 0 then (w i).add ((X i).mmul (Y i)) else w i
  have hw' : ∀ i, (x i).eltype.field = (w' i).eltype.field := fun i => by
    simp only [w', w]; split_ifs <;> simp [hXf, hx]
  let z := fun i => (w' i).retype (x i).eltype (hw' i)
  refine ⟨X, Y, z, openMsgs cfg.experimental_disable_vectorization mx my x y a b, hXY, ?_,
    fun i => ⟨rfl, ?_, fun r c' hc' => ?_⟩⟩
  · simp only [MatMulAA.proc, Prog.bind_eq]
    rw [show fuel + 8 = fuel + 3 + 5 from rfl, hrun,
      show fuel + 3 + k = 2 + 1 + (fuel + k) by omega]
    refine run_local W 2 _ _ _ z _ fun i =>
      localRun_storeOpen_store _ _ _ _ _ (localRun_storeOpen_store _ _ _ _ _ ?_)
    obtain ⟨-, hXs⟩ := hXt i
    obtain ⟨-, hYs⟩ := hYt i
    rw [ringMmul_ok (by simp [hXf, hy]) (by rw [hXs]) rfl,
      ringMmul_ok (by simp [hx, hYf]) rfl (by rw [hYs]), ringMmul_ok (by rw [hXf, hYf]) hXs hYs]
    simp [a, b, c, hXf, hYf, hx, hy, hXs, hYs]
    simp only [z, w', w]
    split_ifs <;> exact ⟨rfl, rfl⟩
  · simp only [z, w', w]; split_ifs <;> simp [(hXt i).2, (hYt i).2, a, b, c]
  · have haf : (a i).eltype.field = f := hx i
    simp only [z, w', w, retype_data, ite_data, ite_apply, Nat.cast_ite, add_data_cast,
      add_eltype, mmul_eltype, hXf, mmul_data_cast (X i) (b i) (hXf i) (hXt i).2 rfl hc',
      mmul_data_cast (a i) (Y i) haf rfl (hYt i).2 hc', mmul_data_cast _ _ (hXf i) (hXt i).2
      (hYt i).2 hc', a, b, c, ofFun_data_cast (hx i), ofFun_data_cast (hy i)]
    split_ifs <;> simp

/-- `MatMulAA` on an `m × n` and an `n × p` operand that each hit the cache on every party or
on none, with every cached opening an opening against the masks the draw returns: one draw,
the stores of `mulStores`, `m × p` outputs, which share `x y` when the draw is a dot
triple. -/
theorem run_MatMulAA (cfg : RuntimeConfig) (s : Sys N) (f : FieldType) (m n p : ℕ)
    (x y : Fin N → NdArrayRef) (hx : ∀ i, (x i).eltype.field = f)
    (hy : ∀ i, (y i).eltype.field = f) (hxs : ∀ i, (x i).shape = [m, n])
    (hys : ∀ i, (y i).shape = [n, p]) (mx my : Prop) [Decidable mx] [Decidable my]
    (hsx : ∀ i, ((s.cache i).getCache (x i) true).replay_desc.status = .Init ↔ mx)
    (hsy : ∀ i, ((s.cache i).getCache (y i) true).replay_desc.status = .Init ↔ my)
    (hox : ¬mx → ∀ i, IsOpening f (m * n) x (fun j => (dotDraw W s x y j).1) i
      ((s.cache i).getCache (x i) true).open_cache)
    (hoy : ¬my → ∀ i, IsOpening f (n * p) y (fun j => (dotDraw W s x y j).2.1) i
      ((s.cache i).getCache (y i) true).open_cache) (fuel : ℕ) :
    ∃ (X Y z : Fin N → NdArrayRef) (msgs : List (Msg N)),
      (∀ i, IsOpening f (m * n) x (fun j => (dotDraw W s x y j).1) i (X i) ∧
        IsOpening f (n * p) y (fun j => (dotDraw W s x y j).2.1) i (Y i)) ∧
      run W (fuel + 8) s (fun i => MatMulAA.proc (cfg.ctx N i) (x i) (y i)) =
        .done z { s with
          draws := s.draws + 1
          trace := s.trace ++ msgs
          cache := fun i => mulStores (s.cache i) (x i) (y i) true
            (mkBuffer f (m * n) (dotDraw W s x y i).1)
            (mkBuffer f (n * p) (dotDraw W s x y i).2.1) (X i) (Y i) } ∧
      (∀ i, (z i).shape = [m, p]) ∧
      (DotTriple W f s.draws m n p → ∀ r < m, ∀ c < p, reconstruct f z (r * p + c) =
        ∑ l ∈ Finset.range n, reconstruct f x (r * n + l) * reconstruct f y (l * p + c)) := by
  obtain ⟨X, Y, z, msgs, hXY, hrun, hz⟩ := run_MatMulAA_shares W cfg s f m n p x y hx hy hxs hys
    mx my hsx hsy (fun h i => ⟨(hox h i).1, (hox h i).2.1.trans (hxs i)⟩)
    (fun h i => ⟨(hoy h i).1, (hoy h i).2.1.trans (hys i)⟩) fuel
  rw [dotDraw_of_shapes W s hxs hys] at hox hoy hXY hrun hz ⊢
  have hX := IsOpening.of_hit (fun i => ⟨(hXY i).1, (hXY i).2.1⟩) hox
  have hY := IsOpening.of_hit (fun i => ⟨(hXY i).2.2.1, (hXY i).2.2.2⟩) hoy
  refine ⟨X, Y, z, msgs, fun i => ⟨hX i, hY i⟩, hrun, fun i => (hz i).2.1,
    fun hW r hr c' hc' => ?_⟩
  let t := W.dot s.draws (fun _ => (m, p, n)) (openDescs s x y true).1 (openDescs s x y true).2
  have hrow : ∀ l ∈ Finset.range n, r * n + l < m * n := fun l hl =>
    index_lt_mul hr (Finset.mem_range.mp hl)
  have hcol : ∀ l ∈ Finset.range n, l * p + c' < n * p := fun l hl =>
    index_lt_mul (Finset.mem_range.mp hl) hc'
  let A := fun l => ∑ j, ((t j).1 (r * n + l) : ZMod (2 ^ f.width))
  let B := fun l => ∑ j, ((t j).2.1 (l * p + c') : ZMod (2 ^ f.width))
  have hsumX : ∀ i (g : ℕ → ZMod (2 ^ f.width)),
      ∑ l ∈ Finset.range n, ((X i).data (r * n + l) : ZMod (2 ^ f.width)) * g l =
        ∑ l ∈ Finset.range n, (reconstruct f x (r * n + l) - A l) * g l := fun i g =>
    Finset.sum_congr rfl fun l hl => by
      rw [(hX i).2.2 _ (hrow l hl), Finset.sum_sub_distrib]; rfl
  have hsumY : ∀ i (g : ℕ → ZMod (2 ^ f.width)),
      ∑ l ∈ Finset.range n, g l * ((Y i).data (l * p + c') : ZMod (2 ^ f.width)) =
        ∑ l ∈ Finset.range n, g l * (reconstruct f y (l * p + c') - B l) := fun i g =>
    Finset.sum_congr rfl fun l hl => by
      rw [(hY i).2.2 _ (hcol l hl), Finset.sum_sub_distrib]; rfl
  have hb_sum : ∑ i, ∑ l ∈ Finset.range n, (reconstruct f x (r * n + l) - A l) *
      ((t i).2.1 (l * p + c') : ZMod (2 ^ f.width)) =
      ∑ l ∈ Finset.range n, (reconstruct f x (r * n + l) - A l) * B l := by
    rw [Finset.sum_comm]; simp only [B, Finset.mul_sum]
  have ha_sum : ∑ i, ∑ l ∈ Finset.range n, ((t i).1 (r * n + l) : ZMod (2 ^ f.width)) *
      (reconstruct f y (l * p + c') - B l) =
      ∑ l ∈ Finset.range n, A l * (reconstruct f y (l * p + c') - B l) := by
    rw [Finset.sum_comm]; simp only [A, Finset.sum_mul]
  have hc_sum : ∑ i, ((t i).2.2 (r * p + c') : ZMod (2 ^ f.width)) =
      ∑ l ∈ Finset.range n, A l * B l := (hW _ _ r hr c' hc').symm
  have hzi : ∀ i, _ := fun i => (hz i).2.2 r c' hc'
  show ∑ i, ((z i).data (r * p + c') : ZMod (2 ^ f.width)) = _
  simp only [hzi, hsumX, hsumY]
  rw [Finset.sum_add_distrib, sum_ite_rank 0 (NeZero.pos N), Finset.sum_add_distrib,
    Finset.sum_add_distrib, hb_sum, ha_sum, hc_sum, ← Finset.sum_add_distrib,
    ← Finset.sum_add_distrib, ← Finset.sum_add_distrib]
  exact Finset.sum_congr rfl fun l _ => by ring

/-- `MatMulAA` reconstructs the matrix product, for every number of parties and all
dimensions: run on sharings of an `m × n` matrix `x` and an `n × p` matrix `y`, each opened by
all-reduce or taken from the replay cache (on every party or on none, a cached opening being
the opening of the operand against the masks the draw returns), with a dot triple from the
Beaver source, the outputs are `m × p` and share `x y`. -/
theorem MatMulAA_reconstructs_product (cfg : RuntimeConfig) (s : Sys N) (f : FieldType)
    (m n p : ℕ) (x y : Fin N → NdArrayRef) (hx : ∀ i, (x i).eltype.field = f)
    (hy : ∀ i, (y i).eltype.field = f) (hxs : ∀ i, (x i).shape = [m, n])
    (hys : ∀ i, (y i).shape = [n, p]) (mx my : Prop) [Decidable mx] [Decidable my]
    (hsx : ∀ i, ((s.cache i).getCache (x i) true).replay_desc.status = .Init ↔ mx)
    (hsy : ∀ i, ((s.cache i).getCache (y i) true).replay_desc.status = .Init ↔ my)
    (hox : ¬mx → ∀ i, IsOpening f (m * n) x (fun j => (dotDraw W s x y j).1) i
      ((s.cache i).getCache (x i) true).open_cache)
    (hoy : ¬my → ∀ i, IsOpening f (n * p) y (fun j => (dotDraw W s x y j).2.1) i
      ((s.cache i).getCache (y i) true).open_cache)
    (hW : DotTriple W f s.draws m n p) (fuel : ℕ) :
    ∃ z s', run W (fuel + 8) s (fun i => MatMulAA.proc (cfg.ctx N i) (x i) (y i)) =
        .done z s' ∧ (∀ i, (z i).shape = [m, p]) ∧
      ∀ r < m, ∀ c < p, reconstruct f z (r * p + c) =
        ∑ l ∈ Finset.range n, reconstruct f x (r * n + l) * reconstruct f y (l * p + c) := by
  obtain ⟨_, _, z, _, _, hrun, hzs, hz⟩ := run_MatMulAA W cfg s f m n p x y hx hy hxs hys mx my
    hsx hsy hox hoy fuel
  exact ⟨z, _, hrun, hzs, hz hW⟩

theorem MatMulAA_product_two_parties :
    ∃ z s', run (World.replaying 2) (0 + 8) (Sys.init 2)
        (fun i => MatMulAA.proc ((⟨true, .FM32⟩ : RuntimeConfig).ctx 2 i)
          (ofFun (AShrTy .FM32) [1, 2] fun idx => i + idx + 2)
          (ofFun (AShrTy .FM32) [2, 1] fun idx => 3 * i + idx + 1)) = .done z s' ∧
      (∀ i, (z i).shape = [1, 1]) ∧
      ∀ r < 1, ∀ c < 1, reconstruct .FM32 z (r * 1 + c) =
        ∑ l ∈ Finset.range 2,
          reconstruct .FM32 (fun i : Fin 2 => ofFun (AShrTy .FM32) [1, 2] fun idx => i + idx + 2)
            (r * 2 + l) *
          reconstruct .FM32 (fun i : Fin 2 => ofFun (AShrTy .FM32) [2, 1] fun idx =>
            3 * i + idx + 1) (l * 1 + c) :=
  MatMulAA_reconstructs_product (World.replaying 2) ⟨true, .FM32⟩ (Sys.init 2) .FM32 1 2 1
    (fun i => ofFun (AShrTy .FM32) [1, 2] fun idx => i + idx + 2)
    (fun i => ofFun (AShrTy .FM32) [2, 1] fun idx => 3 * i + idx + 1)
    (fun _ => rfl) (fun _ => rfl) (fun _ => rfl) (fun _ => rfl) True True
    (fun _ => iff_true_intro rfl) (fun _ => iff_true_intro rfl) (fun h => absurd trivial h)
    (fun h => absurd trivial h) (replaying_dotTriple _ _ _ _ _) 0

/-! ## `MulA1B` -/

/-- `MulA1B` for every number of parties: its operands of `MulOpen`, `xx = (1 - 2 yy) x` and
`yy = y & 1`, are fresh arrays and never hit the cache, so the run leaves every cache as it
was; when the draw is a triple, the outputs share `(Σ xx) (Σ yy) - Σ xx yy + Σ x yy`. -/
theorem run_MulA1B (cfg : RuntimeConfig) (s : Sys N) (f : FieldType) (sh : Shape)
    (x y : Fin N → NdArrayRef) (hx : ∀ i, (x i).eltype.field = f)
    (hy : ∀ i, (y i).eltype.field = f) (hxs : ∀ i, (x i).shape = sh)
    (hys : ∀ i, (y i).shape = sh) (fuel : ℕ) :
    ∃ (z : Fin N → NdArrayRef) (msgs : List (Msg N)),
      run W (fuel + 8) s (fun i => MulA1B.proc (cfg.ctx N i) (x i) (y i)) =
        .done z { s with draws := s.draws + 1, trace := s.trace ++ msgs } ∧
      (MulTriple W f s.draws sh.prod → ∀ idx < sh.prod, reconstruct f z idx =
        (∑ i, (1 - 2 * ((y i).data idx % 2 : ℕ)) * ((x i).data idx : ZMod (2 ^ f.width))) *
            ∑ i, (((y i).data idx % 2 : ℕ) : ZMod (2 ^ f.width)) -
          ∑ i, (1 - 2 * ((y i).data idx % 2 : ℕ)) * ((x i).data idx : ZMod (2 ^ f.width)) *
            ((y i).data idx % 2 : ℕ) +
          ∑ i, ((x i).data idx : ZMod (2 ^ f.width)) * ((y i).data idx % 2 : ℕ)) := by
  let yy := fun i => ((y i).bitmask 0 1).retype (RingTy f) (by simp [hy])
  let xx := fun i => ((ringOnes f (x i).shape).sub ((yy i).lshift [1])).mul (x i)
  have hxxf : ∀ i, (xx i).eltype.field = f := fun i => by simp [xx, ringOnes]
  have hyyf : ∀ i, (yy i).eltype.field = f := fun i => by simp [yy]
  have hxxs : ∀ i, (xx i).shape = sh := fun i => by simp [xx, ringOnes, hxs]
  have hyys : ∀ i, (yy i).shape = sh := fun i => by simp [yy, hys]
  have hmiss : ∀ (u : Fin N → NdArrayRef), (∀ i, (u i).buf = none) →
      ∀ i, ((s.cache i).getCache (u i) false).replay_desc.status = .Init ↔ True := fun u hu i => by
    rw [BeaverCache.getCache_of_buf_none _ (hu i)]
    exact iff_true_intro rfl
  obtain ⟨X, Y, m, hXY, hrun⟩ := run_MulOpen W cfg s f sh xx yy hxxf hyyf hxxs hyys True True
    (hmiss xx fun _ => rfl) (hmiss yy fun _ => rfl)
  have hX := fun i => (hXY i).1 trivial
  have hY := fun i => (hXY i).2.2.1 trivial
  let t := mulDraw W s xx yy
  let a := fun i => ofFun (xx i).eltype sh (t i).1
  let b := fun i => ofFun (yy i).eltype sh (t i).2.1
  let c := fun i => ofFun (xx i).eltype sh (t i).2.2
  have hXf : ∀ i, (X i).eltype.field = f := fun i => by rw [(hX i).1, hxxf]
  let w := fun i : Fin N => (((((b i).mul (X i)).add ((a i).mul (Y i))).add (c i)).sub
    ((xx i).mul (yy i)))
  let w' := fun i : Fin N =>
    (if (i : ℕ) = 0 then (w i).add ((X i).mul (Y i)) else w i).add ((x i).mul (yy i))
  have hw' : ∀ i, (x i).eltype.field = (w' i).eltype.field := fun i => by
    simp only [w', w]; split_ifs <;> simp [hx, b, hyyf]
  let z := fun i => (w' i).retype (x i).eltype (hw' i)
  refine ⟨z, openMsgs cfg.experimental_disable_vectorization True True xx yy a b, ?_,
    fun hW idx hidx => ?_⟩
  · have hpre : ∀ i, MulA1B.proc (cfg.ctx N i) (x i) (y i) = (MulOpen (cfg.ctx N i) (xx i) (yy i)
        false).bind fun v => (do
          let b ← ringMul v.2.1 v.2.2.2.1
          let a ← ringMul v.1 v.2.2.2.2
          let b ← ringAdd b a
          let b ← ringAdd b v.2.2.1
          let xx ← ringMul (xx i) (yy i)
          let b ← ringSub b xx
          let b ← if (cfg.ctx N i).rank = 0 then do ringAdd b (← ringMul v.2.2.2.1 v.2.2.2.2)
            else pure b
          let b ← ringAdd b (← ringMul (x i) (yy i))
          b.as (x i).eltype : Prog NdArrayRef) := fun i => by
      simp only [MulA1B.proc, hx, hy, decide_True, enforce_true, RingTy_field, bitmask_eltype,
        as_eq, Prog.monadLift_eq, Prog.ofExcept_ok, ringOnes, hxs, RuntimeConfig.ctx_rank,
        Prog.bind_eq, Prog.pure_eq, Prog.pure_bind, ofFun_eltype, lshift_eltype, retype_eltype,
        ofFun_shape, lshift_shape, retype_shape, bitmask_shape, hys, ringSub_ok, ringMul_ok,
        sub_eltype, sub_shape, mul_eltype, mul_shape, xx, yy]
    simp only [hpre]
    rw [show fuel + 8 = fuel + 3 + 5 from rfl, hrun,
      show fuel + 3 + m = 2 + 1 + (fuel + m) by omega]
    refine run_local W 2 _ _ _ z _ fun i =>
      localRun_storeOpen_store _ _ _ _ _ (localRun_storeOpen_store _ _ _ _ _ ?_)
    have hXs : (X i).shape = sh := (hX i).2.1.trans (hxxs i)
    have hYs : (Y i).shape = sh := (hY i).2.1.trans (hyys i)
    simp only [(hY i).1, hyyf, (hX i).1, hxxf, hXs, ringMul_ok, Prog.monadLift_eq,
      Prog.ofExcept_ok, hYs, hxxs, hyys, RuntimeConfig.ctx_rank, hx, hxs, Prog.bind_eq,
      Prog.pure_bind, Prog.pure_eq, mul_eltype, mul_shape, ringAdd_ok, add_eltype, add_shape,
      ringSub_ok, sub_eltype, sub_shape, as_eq, Prog.ite_pure, Prog.localRun_pure,
      Option.some.injEq, Prod.mk.injEq, a, b, c, ofFun_eltype, ofFun_shape]
    simp only [z, w', w]
    split_ifs <;> exact ⟨rfl, mulStores_of_buf_none _ rfl rfl _ _ _ _ _⟩
  have hyy : ∀ i, ((yy i).data idx : ZMod (2 ^ f.width)) = (((y i).data idx % 2 : ℕ) : ZMod _) :=
    fun i => by simp [yy, hy, bitmask]
  have hxx : ∀ i, ((xx i).data idx : ZMod (2 ^ f.width)) =
      (1 - 2 * ((y i).data idx % 2 : ℕ)) * (x i).data idx := fun i => by
    have h1 : (yy i).eltype.field = f := hyyf i
    simp only [xx, mul_data_cast _ _ _ (by simp [ringOnes] : ((ringOnes f (x i).shape).sub
      ((yy i).lshift [1])).eltype.field = f), sub_data_cast _ _ _ (by simp [ringOnes] :
      (ringOnes f (x i).shape).eltype.field = f), lshift_data_cast _ _ _ h1, hyy]
    simp [ringOnes, shiftAt, mul_comm]
  have hXi : ∀ i, ((X i).data idx : ZMod (2 ^ f.width)) =
      ∑ j, ((xx j).data idx : ZMod _) - ∑ j, ((t j).1 idx : ZMod _) := fun i => by
    rw [(hX i).2.2 idx hidx, Finset.sum_sub_distrib]
  have hYi : ∀ i, ((Y i).data idx : ZMod (2 ^ f.width)) =
      ∑ j, ((yy j).data idx : ZMod _) - ∑ j, ((t j).2.1 idx : ZMod _) := fun i => by
    rw [(hY i).2.2 idx hidx, Finset.sum_sub_distrib]
  have hzi : ∀ i, ((z i).data idx : ZMod (2 ^ f.width)) =
      (if (i : ℕ) = 0 then ((t i).2.1 idx * (X i).data idx + (t i).1 idx * (Y i).data idx +
        (t i).2.2 idx - (xx i).data idx * (yy i).data idx : ZMod (2 ^ f.width)) +
          (X i).data idx * (Y i).data idx
      else (t i).2.1 idx * (X i).data idx + (t i).1 idx * (Y i).data idx + (t i).2.2 idx -
        (xx i).data idx * (yy i).data idx) + (x i).data idx * (yy i).data idx := fun i => by
    simp only [z, w', w, retype_data, ite_data, ite_apply, Nat.cast_ite, add_data_cast,
      sub_data_cast, mul_data_cast, add_eltype, sub_eltype, mul_eltype, apply_ite NdArrayRef.eltype,
      ite_self, b, a, c, ofFun_eltype, hyyf, hxxf, hXf, hx, ofFun_data_cast (hxxf i),
      ofFun_data_cast (hyyf i)]
  have htriple : (∑ i, ((t i).1 idx : ZMod (2 ^ f.width))) * ∑ i, ((t i).2.1 idx : ZMod _) =
      ∑ i, ((t i).2.2 idx : ZMod _) := hW _ _ idx hidx
  simp only [reconstruct, hzi, hXi, hYi]
  rw [Finset.sum_add_distrib, sum_ite_add_rank 0 (NeZero.pos N), Finset.sum_sub_distrib,
    Finset.sum_add_distrib, Finset.sum_add_distrib, ← Finset.sum_mul, ← Finset.sum_mul,
    ← htriple]
  simp only [hxx, hyy]
  ring

/-- What `MulA1B` computes, for every number of parties: with `yy = y & 1` and
`xx = (1 - 2 yy) x` on every party, the outputs share `(Σ xx) (Σ yy) - Σ xx yy + Σ x yy`. -/
theorem MulA1B_reconstruct (cfg : RuntimeConfig) (s : Sys N) (f : FieldType) (sh : Shape)
    (x y : Fin N → NdArrayRef) (hx : ∀ i, (x i).eltype.field = f)
    (hy : ∀ i, (y i).eltype.field = f) (hxs : ∀ i, (x i).shape = sh)
    (hys : ∀ i, (y i).shape = sh) (hW : MulTriple W f s.draws sh.prod) (fuel : ℕ) :
    ∃ z s', run W (fuel + 8) s (fun i => MulA1B.proc (cfg.ctx N i) (x i) (y i)) = .done z s' ∧
      ∀ idx < sh.prod, reconstruct f z idx =
        (∑ i, (1 - 2 * ((y i).data idx % 2 : ℕ)) * ((x i).data idx : ZMod (2 ^ f.width))) *
            ∑ i, (((y i).data idx % 2 : ℕ) : ZMod (2 ^ f.width)) -
          ∑ i, (1 - 2 * ((y i).data idx % 2 : ℕ)) * ((x i).data idx : ZMod (2 ^ f.width)) *
            ((y i).data idx % 2 : ℕ) +
          ∑ i, ((x i).data idx : ZMod (2 ^ f.width)) * ((y i).data idx % 2 : ℕ) := by
  obtain ⟨z, _, hrun, hz⟩ := run_MulA1B W cfg s f sh x y hx hy hxs hys fuel
  exact ⟨z, _, hrun, hz hW⟩

/-- Three parties, one element: `x` shared as `1, 0, 0`. -/
def mulA1BThreeX : Fin 3 → NdArrayRef :=
  fun i => ofFun (AShrTy .FM64) [1] fun _ => if (i : ℕ) = 0 then 1 else 0

/-- Three parties, one element: the bit `y` shared as `0, 1, 1`, so `y = 0`. -/
def mulA1BThreeY : Fin 3 → NdArrayRef :=
  fun i => ofFun ⟨.BShr 1, .FM64⟩ [1] fun _ => if (i : ℕ) = 0 then 0 else 1

/-- With three parties `MulA1B` completes without error and shares `2`, where `x` times the
XOR of the bit shares is `1 * (0 ^^^ 1 ^^^ 1) = 0`. -/
theorem MulA1B_three_parties_shares_two :
    ∃ z s', run (World.zero 3) (0 + 8) (Sys.init 3)
        (fun i => MulA1B.proc ((⟨false, .FM64⟩ : RuntimeConfig).ctx 3 i) (mulA1BThreeX i)
          (mulA1BThreeY i)) = .done z s' ∧
      reconstruct .FM64 z 0 = 2 ∧
      reconstruct .FM64 mulA1BThreeX 0 *
        ((((mulA1BThreeY 0).data 0 ^^^ (mulA1BThreeY 1).data 0 ^^^ (mulA1BThreeY 2).data 0) % 2 :
          ℕ) : ZMod (2 ^ FieldType.FM64.width)) = 0 := by
  obtain ⟨z, s', hrun, hz⟩ := MulA1B_reconstruct (World.zero 3) ⟨false, .FM64⟩ (Sys.init 3) .FM64
    [1] mulA1BThreeX mulA1BThreeY (fun _ => rfl) (fun _ => rfl) (fun _ => rfl) (fun _ => rfl)
    (fun _ _ idx _ => by simp [World.zero]) 0
  refine ⟨z, s', hrun, ?_, ?_⟩
  · rw [hz 0 (by decide)]
    simp [Fin.sum_univ_three, mulA1BThreeX, mulA1BThreeY]
    norm_num
  · simp [reconstruct, Fin.sum_univ_three, mulA1BThreeX, mulA1BThreeY]

end Semi2k
