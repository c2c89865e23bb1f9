import Semi2k.Squares

/-!
# The Beaver replay cache over a session

A session runs the Beaver kernels `MulAA`, `MatMulAA`, `MulA1B` and `SquareA` one after
another on all parties, with `BeaverCacheKernel` turning caching on and off for values in
between (`Call`, `Reachable`).  This module says what every party's cache holds at every
point of a session: under an identity and a multiplication kind, an entry on every party or
on none, each pairing a replayable descriptor with the opening of the variable against the
masks the parties' descriptors recorded (`CacheInv`).  Every call keeps it (`CacheInv.exec`,
one lemma per kernel below it), whatever the aliasing of its operands, and a kernel that
takes an opening from the cache computes what it computes on a miss: the product (or
square) of its inputs, whenever the Beaver source's draw meets its contract (the session
theorem at the end).

The external contracts are hypotheses: the Beaver source replays the masks a descriptor
recorded (`Replays`), and arrays of one identity hold the shares of one variable of the
session's memory (`Coherent`).
-/

namespace Semi2k

open NdArrayRef

variable {N : ℕ}

/-- Modelled from the spec: handed the descriptor of an operand that an earlier call recorded
(status `Replay`), the Beaver source returns for that operand the mask shares recorded in
it. -/
structure Replays (W : World N) : Prop where
  mul_x : ∀ n dx dy i d, dx i = some d → d.status = .Replay →
    (W.mul n dx dy i).1 = d.mask.data
  mul_y : ∀ n dx dy i d, dy i = some d → d.status = .Replay →
    (W.mul n dx dy i).2.1 = d.mask.data
  dot_x : ∀ n k dx dy i d, dx i = some d → d.status = .Replay →
    (W.dot n k dx dy i).1 = d.mask.data
  dot_y : ∀ n k dx dy i d, dy i = some d → d.status = .Replay →
    (W.dot n k dx dy i).2.1 = d.mask.data
  square : ∀ n dx i d, dx i = some d → d.status = .Replay → (W.square n dx i).1 = d.mask.data

section Invariant

variable (mem : ℕ → Fin N → NdArrayRef)

/-- An operand of a session: an array of the same identity on every party, and, when that is
the identity `b` of a variable, party `i`'s share `mem b i` of it (arrays of one identity
hold the same data). -/
def Coherent (x : Fin N → NdArrayRef) : Prop :=
  (∀ i j, (x i).buf = (x j).buf) ∧ ∀ i b, (x i).buf = some b → x i = mem b i

/-- What the parties' caches hold: caching is on for an identity on every party or on none;
under an identity and a kind every party holds an entry or none does; and each entry pairs a
replayable descriptor with party `i`'s copy of the opening of the variable against the masks
the parties' descriptors recorded. -/
structure CacheInv (c : Fin N → BeaverCache) : Prop where
  enabled : ∀ i j b, (c i).enabled b = (c j).enabled b
  entries : ∀ b mmul, (∀ i, (c i).entries b mmul = none) ∨
    ∃ (d : Fin N → ReplayDesc) (o : Fin N → NdArrayRef),
      (∀ i, (c i).entries b mmul = some (d i, o i)) ∧ ∀ i, (d i).status = .Replay ∧
        IsOpening (mem b i).eltype.field (mem b i).numel (mem b) (fun j => (d j).mask.data) i
          (o i)

variable {mem}

theorem cacheInv_init : CacheInv mem (Sys.init N).cache :=
  ⟨fun _ _ _ => rfl, fun _ _ => .inl fun _ => rfl⟩

/-- Switching caching for an identity alike on every party and dropping its entries keeps
the invariant. -/
theorem CacheInv.reset {c : Fin N → BeaverCache} (hc : CacheInv mem c) (b : ℕ) (e : Bool) :
    CacheInv mem fun i =>
      ⟨Function.update (c i).enabled b e, Function.update (c i).entries b fun _ => none⟩ := by
  refine ⟨fun i j b' => ?_, fun b' mmul' => ?_⟩
  · simp only [Function.update_apply]
    split_ifs
    · rfl
    · exact hc.enabled i j b'
  · by_cases hb' : b' = b
    · exact .inl fun i => by simp only [hb', Function.update_same]
    · simpa only [Function.update_noteq hb'] using hc.entries b' mmul'

/-- Writing an entry under one identity and kind on every party keeps the invariant when it
pairs a replayable descriptor with the opening of the variable against the masks it records. -/
theorem CacheInv.write {c : Fin N → BeaverCache} (hc : CacheInv mem c) (b : ℕ) (mmul : Bool)
    (d : Fin N → ReplayDesc) (o : Fin N → NdArrayRef) (hd : ∀ i, (d i).status = .Replay)
    (ho : ∀ i, IsOpening (mem b i).eltype.field (mem b i).numel (mem b)
      (fun j => (d j).mask.data) i (o i)) :
    CacheInv mem fun i => ⟨(c i).enabled,
      Function.update (c i).entries b
        (Function.update ((c i).entries b) mmul (some (d i, o i)))⟩ := by
  refine ⟨hc.enabled, fun b' mmul' => ?_⟩
  by_cases hk : b' = b ∧ mmul' = mmul
  · obtain ⟨rfl, rfl⟩ := hk
    exact .inr ⟨d, o, fun i => by simp, fun i => ⟨hd i, ho i⟩⟩
  · have hother : ∀ i, Function.update (c i).entries b
        (Function.update ((c i).entries b) mmul (some (d i, o i))) b' mmul' =
          (c i).entries b' mmul' := fun i => by
      by_cases h1 : b' = b
      · subst h1
        rw [Function.update_same, Function.update_noteq fun h2 => hk ⟨rfl, h2⟩]
      · rw [Function.update_noteq h1]
    simpa only [hother] using hc.entries b' mmul'

theorem Coherent.eq_mem {x : Fin N → NdArrayRef} (hx : Coherent mem x) {i : Fin N} {b : ℕ}
    (hb : (x i).buf = some b) (j : Fin N) : x j = mem b j :=
  hx.2 j b ((hx.1 j i).trans hb)

theorem Coherent.eq_of_beq {x y : Fin N → NdArrayRef} (hx : Coherent mem x)
    (hy : Coherent mem y) {i : Fin N} (h : (x i == y i) = true) : x i = y i := by
  simp only [beq_def, Bool.and_eq_true, beq_iff_eq] at h
  obtain ⟨⟨hsome, hbuf⟩, -⟩ := h
  obtain ⟨b, hb⟩ := Option.isSome_iff_exists.mp hsome
  exact (hx.eq_mem hb i).trans (hy.eq_mem (hbuf ▸ hb) i).symm

end Invariant

/-! ## Lookups -/

section Lookup

variable [NeZero N] {mem : ℕ → Fin N → NdArrayRef} {c : Fin N → BeaverCache}
  {x : Fin N → NdArrayRef}

theorem BeaverCache.getCache_enabled (c : BeaverCache) (x : NdArrayRef) (mmul : Bool) :
    (c.getCache x mmul).enabled = x.buf.any c.enabled := by
  unfold BeaverCache.getCache
  split
  · split
    · split <;> simp_all
    · simp_all [BeaverCache.disabledEntry]
  · simp_all [BeaverCache.disabledEntry]

/-- Every party reads whether caching is on for an operand alike. -/
theorem CacheInv.getCache_enabled_eq (hc : CacheInv mem c) (hx : Coherent mem x) (mmul : Bool)
    (i : Fin N) : ((c i).getCache (x i) mmul).enabled = ((c 0).getCache (x 0) mmul).enabled := by
  simp only [BeaverCache.getCache_enabled, hx.1 i 0]
  cases (x 0).buf with
  | none => rfl
  | some b => exact hc.enabled i 0 b

/-- What the parties read for an operand: a fresh descriptor on every party, or on every
party a replayable entry holding the opening of the operand against the masks recorded in
the parties' descriptors. -/
theorem CacheInv.getCache_cases (hc : CacheInv mem c) (hx : Coherent mem x) (mmul : Bool) :
    (∀ i, ((c i).getCache (x i) mmul).replay_desc.status = .Init) ∨
    ∃ b, (∀ i, x i = mem b i) ∧ ∀ i, ((c i).getCache (x i) mmul).enabled = true ∧
      ((c i).getCache (x i) mmul).replay_desc.status = .Replay ∧
      IsOpening (mem b i).eltype.field (mem b i).numel (mem b)
        (fun j => ((c j).getCache (x j) mmul).replay_desc.mask.data) i
        ((c i).getCache (x i) mmul).open_cache := by
  cases hb : (x 0).buf with
  | none =>
    left
    intro i
    rw [BeaverCache.getCache_of_buf_none _ ((hx.1 i 0).trans hb)]
    rfl
  | some b =>
    have hxb : ∀ i, (x i).buf = some b := fun i => (hx.1 i 0).trans hb
    by_cases hen : (c 0).enabled b
    · rcases hc.entries b mmul with hnone | ⟨d, o, hdo, hd⟩
      · left
        intro i
        simp [BeaverCache.getCache, hxb i, hc.enabled i 0 b, hen, hnone i, ReplayDesc.init]
      · right
        have hget : ∀ i, (c i).getCache (x i) mmul = ⟨true, d i, o i⟩ := fun i => by
          simp [BeaverCache.getCache, hxb i, hc.enabled i 0 b, hen, hdo i]
        refine ⟨b, hx.eq_mem hb, fun i => ?_⟩
        simp only [hget]
        exact ⟨trivial, hd i⟩
    · left
      intro i
      simp [BeaverCache.getCache, hxb i, hc.enabled i 0 b, hen, BeaverCache.disabledEntry,
        ReplayDesc.init]

theorem CacheInv.getCache_status_eq (hc : CacheInv mem c) (hx : Coherent mem x) (mmul : Bool)
    (i : Fin N) :
    ((c i).getCache (x i) mmul).replay_desc.status =
      ((c 0).getCache (x 0) mmul).replay_desc.status := by
  rcases hc.getCache_cases hx mmul with h | ⟨_, _, h⟩
  · rw [h i, h 0]
  · rw [(h i).2.1, (h 0).2.1]

/-- Two operands share an identity exactly when `==` holds between them, alike on every
party. -/
theorem Coherent.beq_iff {y : Fin N → NdArrayRef} (hx : Coherent mem x) (hy : Coherent mem y)
    (i : Fin N) : (x i == y i) = true ↔ ∃ b, (x 0).buf = some b ∧ (y 0).buf = some b := by
  constructor
  · intro h
    simp only [beq_def, Bool.and_eq_true, beq_iff_eq] at h
    obtain ⟨b, hb⟩ := Option.isSome_iff_exists.mp h.1.1
    exact ⟨b, (hx.1 0 i).trans hb, (hy.1 0 i).trans (h.1.2 ▸ hb)⟩
  · rintro ⟨b, hxb, hyb⟩
    have hm : (mem b i).buf = some b := hx.eq_mem hxb i ▸ (hx.1 i 0).trans hxb
    rw [hx.eq_mem hxb i, hy.eq_mem hyb i]
    simp [beq_def, hm]

theorem Coherent.beq_eq {y : Fin N → NdArrayRef} (hx : Coherent mem x) (hy : Coherent mem y)
    (i : Fin N) : (x i == y i) = (x 0 == y 0) :=
  Bool.eq_iff_iff.mpr ((hx.beq_iff hy i).trans (hx.beq_iff hy 0).symm)

end Lookup

/-! ## Stores -/

/-- The Beaver source records the masks it hands out into a descriptor caching is on for and
that is still `Init`. -/
theorem withDesc_record_mask (e : Cache) (m : Buffer)
    (h : e.enabled = true ∧ e.replay_desc.status = .Init) :
    (e.withDesc (record e.desc? m)).replay_desc.mask = m := by
  simp [Cache.withDesc, Cache.desc?, record, h.1, h.2]

theorem aliasGuard_enabled (x y : NdArrayRef) (xc yc : Cache) :
    (aliasGuard x y xc yc).enabled =
      (yc.enabled && !((x == y) && xc.enabled && decide (xc.replay_desc.status = .Init))) := by
  unfold aliasGuard
  split_ifs with h
  · simp [h.1, h.2.1, h.2.2]
  · cases hb : (x == y) <;> cases he : xc.enabled <;> simp_all

section Stores

variable [NeZero N] {mem : ℕ → Fin N → NdArrayRef} {c : Fin N → BeaverCache}
  {x : Fin N → NdArrayRef}

/-- A `SetCache` on every party of an opening of the operand against the masks of the
parties' descriptors keeps the invariant. -/
theorem CacheInv.setCache (hc : CacheInv mem c) (hx : Coherent mem x) (mmul : Bool)
    (d : Fin N → ReplayDesc) (o : Fin N → NdArrayRef)
    (ho : ∀ b, (x 0).buf = some b → ∀ i, IsOpening (mem b i).eltype.field (mem b i).numel
      (mem b) (fun j => (d j).mask.data) i (o i)) :
    CacheInv mem fun i => (c i).setCache (x i) mmul (d i) (o i) := by
  have hxb : ∀ i, (x i).buf = (x 0).buf := fun i => hx.1 i 0
  simp only [BeaverCache.setCache, hxb]
  cases hb : (x 0).buf with
  | none => exact hc
  | some b =>
    cases hen : (c 0).enabled b
    · have hoff : ∀ i, (c i).enabled b = false := fun i => (hc.enabled i 0 b).trans hen
      simpa only [hoff] using hc
    · have hon : ∀ i, (c i).enabled b = true := fun i => (hc.enabled i 0 b).trans hen
      simpa only [hon, if_true] using
        hc.write b mmul (fun i => ⟨.Replay, (d i).mask⟩) o (fun _ => rfl) (ho b hb)

/-- `storeOpen` on every party, the parties agreeing on whether to store, keeps the invariant
when what it stores is an opening against the masks of the stored descriptors. -/
theorem CacheInv.store (hc : CacheInv mem c) (hx : Coherent mem x) (mmul : Bool)
    (xc : Fin N → Cache) (o : Fin N → NdArrayRef)
    (hsync : ∀ i, ((xc i).enabled ∧ (xc i).replay_desc.status = .Init) ↔
      ((xc 0).enabled ∧ (xc 0).replay_desc.status = .Init))
    (ho : (xc 0).enabled ∧ (xc 0).replay_desc.status = .Init → ∀ b, (x 0).buf = some b →
      ∀ i, IsOpening (mem b i).eltype.field (mem b i).numel (mem b)
        (fun j => (xc j).replay_desc.mask.data) i (o i)) :
    CacheInv mem fun i => (c i).store (x i) mmul (xc i) (o i) := by
  by_cases h0 : (xc 0).enabled ∧ (xc 0).replay_desc.status = .Init
  · have hset : (fun i => (c i).store (x i) mmul (xc i) (o i)) =
        fun i => (c i).setCache (x i) mmul (xc i).replay_desc (o i) :=
      funext fun i => if_pos ((hsync i).2 h0)
    rw [hset]
    exact hc.setCache hx mmul _ o (ho h0)
  · have hkeep : (fun i => (c i).store (x i) mmul (xc i) (o i)) = c :=
      funext fun i => if_neg (mt (hsync i).1 h0)
    rwa [hkeep]

/-- A store of an entry the parties looked up alike, with the masks `ma` of the draw recorded
into it, keeps the invariant when `o` opens the operand against `ma`. -/
theorem CacheInv.store_drawn (hc : CacheInv mem c) (hx : Coherent mem x) (mmul : Bool)
    (e : Fin N → Cache) (ma : Fin N → Buffer) (o : Fin N → NdArrayRef)
    (hen : ∀ i, (e i).enabled = (e 0).enabled)
    (hst : ∀ i, (e i).replay_desc.status = (e 0).replay_desc.status)
    (ho : ∀ b, (x 0).buf = some b → ∀ i, IsOpening (mem b i).eltype.field (mem b i).numel
      (mem b) (fun j => (ma j).data) i (o i)) :
    CacheInv mem fun i => (c i).store (x i) mmul ((e i).withDesc (record (e i).desc? (ma i)))
      (o i) := by
  refine hc.store hx mmul _ o (fun i => by
    simp only [withDesc_enabled, withDesc_record_status, hen i, hst i]) fun h0 b hb i => ?_
  simp only [withDesc_enabled, withDesc_record_status] at h0
  have hmask : (fun j => ((e j).withDesc (record (e j).desc? (ma j))).replay_desc.mask.data) =
      fun j => (ma j).data :=
    funext fun j => by rw [withDesc_record_mask _ _ ⟨(hen j).trans h0.1, (hst j).trans h0.2⟩]
  rw [hmask]
  exact ho b hb i

/-- `MulOpen`'s two stores keep the invariant when `X` and `Y` open `x` and `y` against the
masks `ma` and `mb` of the draw, whatever the aliasing of `x` and `y`. -/
theorem CacheInv.mulStores {y : Fin N → NdArrayRef} (hc : CacheInv mem c) (hx : Coherent mem x)
    (hy : Coherent mem y) (mmul : Bool) (ma mb : Fin N → Buffer) (X Y : Fin N → NdArrayRef)
    (hX : ∀ b, (x 0).buf = some b → ∀ i, IsOpening (mem b i).eltype.field (mem b i).numel
      (mem b) (fun j => (ma j).data) i (X i))
    (hY : ∀ b, (y 0).buf = some b → ∀ i, IsOpening (mem b i).eltype.field (mem b i).numel
      (mem b) (fun j => (mb j).data) i (Y i)) :
    CacheInv mem fun i => mulStores (c i) (x i) (y i) mmul (ma i) (mb i) (X i) (Y i) := by
  have hxen := hc.getCache_enabled_eq hx mmul
  have hxst := hc.getCache_status_eq hx mmul
  have hc' := hc.store_drawn hx mmul _ ma X hxen hxst hX
  refine hc'.store_drawn hy mmul _ mb Y (fun i => ?_) (fun i => ?_) hY
  · simp only [openEntries, aliasGuard_enabled, hx.beq_eq hy i, hxen i, hxst i,
      hc.getCache_enabled_eq hy mmul i]
  · simp only [openEntries, aliasGuard_status, hc.getCache_status_eq hy mmul i]

/-- Enabling caching for an operand on every party keeps the invariant: an identity newly
enabled starts with no entries on any party. -/
theorem CacheInv.enableCache (hc : CacheInv mem c) (hx : ∀ i, (x i).buf = (x 0).buf) :
    CacheInv mem fun i => (c i).enableCache (x i) := by
  simp only [BeaverCache.enableCache, hx]
  cases (x 0).buf with
  | none => exact hc
  | some b =>
    cases hen : (c 0).enabled b
    · have hoff : ∀ i, (c i).enabled b = false := fun i => (hc.enabled i 0 b).trans hen
      simpa only [hoff] using hc.reset b true
    · have hon : ∀ i, (c i).enabled b = true := fun i => (hc.enabled i 0 b).trans hen
      simpa only [hon, if_true] using hc

/-- Disabling caching for an operand on every party keeps the invariant: its entries are
dropped on every party. -/
theorem CacheInv.disableCache (hc : CacheInv mem c) (hx : ∀ i, (x i).buf = (x 0).buf) :
    CacheInv mem fun i => (c i).disableCache (x i) := by
  simp only [BeaverCache.disableCache, hx]
  cases (x 0).buf with
  | none => exact hc
  | some b => exact hc.reset b false

end Stores

/-! ## The cache kernel -/

/-- What `EnableCache` or `DisableCache` leaves in a party's cache. -/
def BeaverCache.toggle (c : BeaverCache) (enable_cache : Bool) (x : NdArrayRef) : BeaverCache :=
  if enable_cache then c.enableCache x else c.disableCache x

/-- What `BeaverCacheKernel::evaluate` leaves in a party's cache: the value's data switched,
then its imaginary part if it has one. -/
def BeaverCache.toggleValue (c : BeaverCache) (enable_cache : Bool) (v : Value) : BeaverCache :=
  match v.imag with
  | some im => (c.toggle enable_cache v.data).toggle enable_cache im
  | none => c.toggle enable_cache v.data

theorem localRun_BeaverCacheKernel (v : Value) (enable_cache : Bool) (c : BeaverCache) :
    (BeaverCacheKernel.evaluate v enable_cache).localRun 2 c =
      some ((), c.toggleValue enable_cache v) := by
  cases enable_cache <;> cases h : v.imag <;>
    simp [BeaverCacheKernel.evaluate, BeaverCache.toggleValue, BeaverCache.toggle, h,
      Prog.localRun, enableCache, disableCache, Request.onCache]

/-- The cache kernel makes only local cache operations: it finishes on every party, with
each party's cache switched. -/
theorem run_BeaverCacheKernel [NeZero N] (W : World N) (s : Sys N) (v : Fin N → Value)
    (enable_cache : Bool) (fuel : ℕ) :
    run W (fuel + 3) s (fun i => BeaverCacheKernel.evaluate (v i) enable_cache) =
      .done (fun _ => ()) { s with cache := fun i => (s.cache i).toggleValue enable_cache (v i) } :=
  (Nat.add_comm fuel 3 ▸ run_local W 2 fuel s _ _ _ fun i =>
    localRun_BeaverCacheKernel (v i) enable_cache (s.cache i))

section Toggle

variable [NeZero N] {mem : ℕ → Fin N → NdArrayRef} {c : Fin N → BeaverCache}

theorem CacheInv.toggle (hc : CacheInv mem c) (enable_cache : Bool) {x : Fin N → NdArrayRef}
    (hx : ∀ i, (x i).buf = (x 0).buf) :
    CacheInv mem fun i => (c i).toggle enable_cache (x i) := by
  cases enable_cache
  · exact hc.disableCache hx
  · exact hc.enableCache hx

/-- The cache kernel on every party, on shares of one value, keeps the invariant. -/
theorem CacheInv.toggleValue (hc : CacheInv mem c) (enable_cache : Bool) {v : Fin N → Value}
    (hd : ∀ i, (v i).data.buf = (v 0).data.buf)
    (him : ∀ i, (v i).imag.map NdArrayRef.buf = (v 0).imag.map NdArrayRef.buf) :
    CacheInv mem fun i => (c i).toggleValue enable_cache (v i) := by
  have hc' := hc.toggle enable_cache hd
  cases h0 : (v 0).imag with
  | none =>
    have hnone : ∀ i, (v i).imag = none := fun i => by simpa [h0] using him i
    have heq : (fun i => (c i).toggleValue enable_cache (v i)) =
        fun i => (c i).toggle enable_cache (v i).data :=
      funext fun i => by simp only [BeaverCache.toggleValue, hnone i]
    rwa [heq]
  | some im0 =>
    have hsome : ∀ i, ∃ im, (v i).imag = some im ∧ im.buf = im0.buf := fun i => by
      simpa [h0] using him i
    choose im him' using hsome
    have heq : (fun i => (c i).toggleValue enable_cache (v i)) =
        fun i => ((c i).toggle enable_cache (v i).data).toggle enable_cache (im i) :=
      funext fun i => by simp only [BeaverCache.toggleValue, (him' i).1]
    rw [heq]
    exact hc'.toggle enable_cache fun i => (him' i).2.trans (him' 0).2.symm

end Toggle

/-! ## The kernels from a state that keeps the invariant -/

/-- An opening of the variable `v` is an opening of the operand `x` that holds it. -/
theorem isOpening_var_iff {f : FieldType} {numel : ℕ} {x v : Fin N → NdArrayRef}
    (hxv : ∀ i, x i = v i) (hxf : ∀ i, (x i).eltype.field = f) (hxn : ∀ i, (x i).numel = numel)
    {m : Fin N → ℕ → ℕ} {i : Fin N} {o : NdArrayRef} :
    IsOpening (v i).eltype.field (v i).numel v m i o ↔ IsOpening f numel x m i o := by
  obtain rfl : x = v := funext hxv
  rw [hxf i, hxn i]

theorem Cache.desc?_of_enabled {e : Cache} (h : e.enabled = true) :
    e.desc? = some e.replay_desc := by
  simp [Cache.desc?, h]

/-- The aliasing guard leaves an entry that hits as it is: it can only fire when `y` is `x`,
whose entry then is the same and misses. -/
theorem aliasGuard_of_ne_init {x y : NdArrayRef} {xc yc : Cache} (h : (x == y) = true → xc = yc)
    (hy : yc.replay_desc.status ≠ .Init) : aliasGuard x y xc yc = yc := by
  unfold aliasGuard
  split_ifs with hg
  · exact absurd (h hg.1 ▸ hg.2.2) hy
  · rfl

/-- `MulOpen` hands the Beaver source the stored descriptor of a `y` that hits: the aliasing
guard does not fire. -/
theorem openDescs_y_of_hit {mem : ℕ → Fin N → NdArrayRef} {s : Sys N}
    {x y : Fin N → NdArrayRef} (hx : Coherent mem x) (hy : Coherent mem y) (mmul : Bool)
    (j : Fin N) (hen : ((s.cache j).getCache (y j) mmul).enabled = true)
    (hst : ((s.cache j).getCache (y j) mmul).replay_desc.status = .Replay) :
    (openDescs s x y mmul).2 j = some ((s.cache j).getCache (y j) mmul).replay_desc := by
  show (aliasGuard _ _ _ _).desc? = _
  rw [aliasGuard_of_ne_init (fun h => by rw [hx.eq_of_beq hy h]) (by rw [hst]; decide)]
  exact Cache.desc?_of_enabled hen

section Kernels

variable [NeZero N] {mem : ℕ → Fin N → NdArrayRef} {c : Fin N → BeaverCache}
  {x : Fin N → NdArrayRef}

/-- On a hit the stored opening opens the operand against any masks that agree with the ones
recorded in the parties' descriptors. -/
theorem CacheInv.hit_isOpening (hc : CacheInv mem c) (hx : Coherent mem x) (mmul : Bool)
    {f : FieldType} {numel : ℕ} (hxf : ∀ i, (x i).eltype.field = f)
    (hxn : ∀ i, (x i).numel = numel) {m : Fin N → ℕ → ℕ}
    (hm : ∀ j, ((c j).getCache (x j) mmul).enabled = true →
      ((c j).getCache (x j) mmul).replay_desc.status = .Replay →
      m j = ((c j).getCache (x j) mmul).replay_desc.mask.data)
    (hhit : ¬((c 0).getCache (x 0) mmul).replay_desc.status = .Init) (i : Fin N) :
    IsOpening f numel x m i ((c i).getCache (x i) mmul).open_cache := by
  rcases hc.getCache_cases hx mmul with hinit | ⟨b, hxb, h⟩
  · exact absurd (hinit 0) hhit
  · refine (isOpening_var_iff hxb hxf hxn).1 ((IsOpening.mask_congr fun j idx => ?_).2 (h i).2.2)
    rw [hm j (h j).1 (h j).2.1]

variable (W : World N) {s : Sys N} {y : Fin N → NdArrayRef}

/-- `MulAA` from a state that keeps the invariant, on operands that are variables of the
session: the run finishes with one draw, keeps the invariant, and shares the product when
the draw is a triple, whether the openings come from the cache or the wire. -/
theorem CacheInv.run_MulAA (hW : Replays W) (hc : CacheInv mem s.cache) (hx : Coherent mem x)
    (hy : Coherent mem y) (cfg : RuntimeConfig) (f : FieldType) (sh : Shape)
    (hxf : ∀ i, (x i).eltype.field = f) (hyf : ∀ i, (y i).eltype.field = f)
    (hxs : ∀ i, (x i).shape = sh) (hys : ∀ i, (y i).shape = sh) (fuel : ℕ) :
    ∃ z s', run W (fuel + 8) s (fun i => MulAA.proc (cfg.ctx N i) (x i) (y i)) = .done z s' ∧
      CacheInv mem s'.cache ∧ (MulTriple W f s.draws sh.prod →
        ∀ idx < sh.prod, reconstruct f z idx = reconstruct f x idx * reconstruct f y idx) := by
  have hxn : ∀ i, (x i).numel = sh.prod := fun i => congrArg List.prod (hxs i)
  have hyn : ∀ i, (y i).numel = sh.prod := fun i => congrArg List.prod (hys i)
  obtain ⟨X, Y, z, _, hXY, hrun, hz⟩ := Semi2k.run_MulAA W cfg s f sh x y hxf hyf hxs hys
    (((s.cache 0).getCache (x 0) false).replay_desc.status = .Init)
    (((s.cache 0).getCache (y 0) false).replay_desc.status = .Init)
    (fun i => by rw [hc.getCache_status_eq hx false i])
    (fun i => by rw [hc.getCache_status_eq hy false i])
    (hc.hit_isOpening hx false hxf hxn fun j hen hst =>
      hW.mul_x _ _ _ j _ (Cache.desc?_of_enabled hen) hst)
    (hc.hit_isOpening hy false hyf hyn fun j hen hst =>
      hW.mul_y _ _ _ j _ (openDescs_y_of_hit hx hy false j hen hst) hst) fuel
  exact ⟨z, _, hrun, hc.mulStores hx hy false _ _ X Y
    (fun b hb i => (isOpening_var_iff (hx.eq_mem hb) hxf hxn).2 (hXY i).1)
    (fun b hb i => (isOpening_var_iff (hy.eq_mem hb) hyf hyn).2 (hXY i).2), hz⟩

/-- `MatMulAA` from a state that keeps the invariant, on an `m × n` and an `n × p` variable
of the session: the run finishes, keeps the invariant, and shares the matrix product when
the draw is a dot triple. -/
theorem CacheInv.run_MatMulAA (hW : Replays W) (hc : CacheInv mem s.cache)
    (hx : Coherent mem x) (hy : Coherent mem y) (cfg : RuntimeConfig) (f : FieldType)
    (m n p : ℕ) (hxf : ∀ i, (x i).eltype.field = f) (hyf : ∀ i, (y i).eltype.field = f)
    (hxs : ∀ i, (x i).shape = [m, n]) (hys : ∀ i, (y i).shape = [n, p]) (fuel : ℕ) :
    ∃ z s', run W (fuel + 8) s (fun i => MatMulAA.proc (cfg.ctx N i) (x i) (y i)) =
        .done z s' ∧ CacheInv mem s'.cache ∧
      (DotTriple W f s.draws m n p → ∀ r < m, ∀ c < p, reconstruct f z (r * p + c) =
        ∑ l ∈ Finset.range n, reconstruct f x (r * n + l) * reconstruct f y (l * p + c)) := by
  have hxn : ∀ i, (x i).numel = m * n := fun i => by simp [numel, hxs i]
  have hyn : ∀ i, (y i).numel = n * p := fun i => by simp [numel, hys i]
  obtain ⟨X, Y, z, _, hXY, hrun, _, hz⟩ := Semi2k.run_MatMulAA W cfg s f m n p x y hxf hyf hxs
    hys (((s.cache 0).getCache (x 0) true).replay_desc.status = .Init)
    (((s.cache 0).getCache (y 0) true).replay_desc.status = .Init)
    (fun i => by rw [hc.getCache_status_eq hx true i])
    (fun i => by rw [hc.getCache_status_eq hy true i])
    (hc.hit_isOpening hx true hxf hxn fun j hen hst =>
      hW.dot_x _ _ _ _ j _ (Cache.desc?_of_enabled hen) hst)
    (hc.hit_isOpening hy true hyf hyn fun j hen hst =>
      hW.dot_y _ _ _ _ j _ (openDescs_y_of_hit hx hy true j hen hst) hst) fuel
  exact ⟨z, _, hrun, hc.mulStores hx hy true _ _ X Y
    (fun b hb i => (isOpening_var_iff (hx.eq_mem hb) hxf hxn).2 (hXY i).1)
    (fun b hb i => (isOpening_var_iff (hy.eq_mem hb) hyf hyn).2 (hXY i).2), hz⟩

/-- `SquareA` from a state that keeps the invariant, on a variable of the session: the run
finishes, keeps the invariant (its entry shares the key of `MulAA`'s), and shares the square
when the draw is a square pair. -/
theorem CacheInv.run_SquareA (hW : Replays W) (hc : CacheInv mem s.cache) (hx : Coherent mem x)
    (cfg : RuntimeConfig) (f : FieldType) (sh : Shape) (hxf : ∀ i, (x i).eltype.field = f)
    (hxs : ∀ i, (x i).shape = sh) (fuel : ℕ) :
    ∃ z s', run W (fuel + 6) s (fun i => SquareA.proc (cfg.ctx N i) (x i)) = .done z s' ∧
      CacheInv mem s'.cache ∧ (SquarePair W f s.draws sh.prod →
        ∀ idx < sh.prod, reconstruct f z idx = reconstruct f x idx ^ 2) := by
  have hxn : ∀ i, (x i).numel = sh.prod := fun i => congrArg List.prod (hxs i)
  obtain ⟨X, z, _, hX, hrun, hz⟩ := Semi2k.run_SquareA W cfg s f x hxf
    (((s.cache 0).getCache (x 0) false).replay_desc.status = .Init)
    (fun i => by rw [hc.getCache_status_eq hx false i]) sh.prod
    (hc.hit_isOpening hx false hxf hxn fun j hen hst =>
      hW.square _ _ j _ (Cache.desc?_of_enabled hen) hst) fuel
  exact ⟨z, _, hrun, hc.store_drawn hx false _ _ X (hc.getCache_enabled_eq hx false)
    (hc.getCache_status_eq hx false)
    (fun b hb i => (isOpening_var_iff (hx.eq_mem hb) hxf hxn).2 (hX i)), hz⟩

end Kernels

/-! ## Sessions -/

section Sessions

variable [NeZero N] (W : World N) {α : Type}

/-- More fuel does not change a run that finished. -/
theorem run_done_le {fuel fuel' : ℕ} {s s' : Sys N} {p : Fin N → Prog α} {z : Fin N → α}
    (h : run W fuel s p = .done z s') (hle : fuel ≤ fuel') : run W fuel' s p = .done z s' := by
  induction fuel generalizing fuel' s p with
  | zero => simp [run] at h
  | succ n ih =>
    obtain ⟨m, rfl⟩ : ∃ m, fuel' = m + 1 := ⟨fuel' - 1, by omega⟩
    rw [run] at h ⊢
    split at h
    · exact h
    · split at h
      · exact h
      · split at h
        · rw [if_pos ‹_›]
          exact ih h (by omega)
        · rw [if_neg ‹_›]
          split at h
          · exact h
          · split at h
            · exact h
            · exact ih h (by omega)

/-- A run finishes with one outcome, whatever the fuel. -/
theorem run_done_unique {fuel fuel' : ℕ} {s s₁ s₂ : Sys N} {p : Fin N → Prog α}
    {z₁ z₂ : Fin N → α} (h₁ : run W fuel s p = .done z₁ s₁) (h₂ : run W fuel' s p = .done z₂ s₂) :
    z₁ = z₂ ∧ s₁ = s₂ := by
  have h := (run_done_le W h₁ (le_max_left fuel fuel')).symm.trans
    (run_done_le W h₂ (le_max_right fuel fuel'))
  cases h
  exact ⟨rfl, rfl⟩

/-- A call of a session, made on every party: a Beaver kernel on the parties' operands, or the
cache kernel on the parties' value. -/
inductive Call (N : ℕ) where
  | mulAA (x y : Fin N → NdArrayRef)
  | matMulAA (x y : Fin N → NdArrayRef)
  | mulA1B (x y : Fin N → NdArrayRef)
  | squareA (x : Fin N → NdArrayRef)
  | beaverCache (v : Fin N → Value) (enable_cache : Bool)

/-- The outputs and the state of a run that finished. -/
def Outcome.result : Outcome N α → Option ((Fin N → α) × Sys N)
  | .done out s => some (out, s)
  | _ => none

/-- A call run on every party with at most `fuel` steps from `s`: the kernel's outputs (none
for the cache kernel) and the state after it, when the call finishes. -/
def Call.exec (cfg : RuntimeConfig) (fuel : ℕ) (s : Sys N) :
    Call N → Option (Option (Fin N → NdArrayRef) × Sys N)
  | .mulAA x y => (run W fuel s fun i => MulAA.proc (cfg.ctx N i) (x i) (y i)).result.map
      fun r => (some r.1, r.2)
  | .matMulAA x y => (run W fuel s fun i => MatMulAA.proc (cfg.ctx N i) (x i) (y i)).result.map
      fun r => (some r.1, r.2)
  | .mulA1B x y => (run W fuel s fun i => MulA1B.proc (cfg.ctx N i) (x i) (y i)).result.map
      fun r => (some r.1, r.2)
  | .squareA x => (run W fuel s fun i => SquareA.proc (cfg.ctx N i) (x i)).result.map
      fun r => (some r.1, r.2)
  | .beaverCache v enable_cache =>
    (run W fuel s fun i => BeaverCacheKernel.evaluate (v i) enable_cache).result.map
      fun r => (none, r.2)

/-- A run that finishes within `8` steps fixes what its call returns with any fuel. -/
theorem exec_of_run {p : Fin N → Prog α} (g : (Fin N → α) → Option (Fin N → NdArrayRef))
    {s s₀ : Sys N} {z₀ : Fin N → α} (hrun : run W 8 s p = .done z₀ s₀)
    (P : Option (Fin N → NdArrayRef) → Sys N → Prop) (hP : P (g z₀) s₀) :
    (∃ z s', ((run W 8 s p).result.map fun r => (g r.1, r.2)) = some (z, s')) ∧
      ∀ fuel z s', ((run W fuel s p).result.map fun r => (g r.1, r.2)) = some (z, s') →
        P z s' := by
  refine ⟨⟨_, _, by rw [hrun]; rfl⟩, fun fuel z s' h => ?_⟩
  cases hr : run W fuel s p with
  | done out s₁ =>
    simp only [hr, Outcome.result, Option.map_some', Option.some.injEq, Prod.mk.injEq] at h
    obtain ⟨rfl, rfl⟩ := h
    obtain ⟨rfl, rfl⟩ := run_done_unique W hr hrun
    exact hP
  | aborted => simp [hr, Outcome.result] at h
  | stuck => simp [hr, Outcome.result] at h

/-- Every party's operands are in the ring and of the shape of party 0's `x`. -/
def SameRingShape (x y : Fin N → NdArrayRef) : Prop :=
  ∀ i, (x i).eltype.field = (x 0).eltype.field ∧ (y i).eltype.field = (x 0).eltype.field ∧
    (x i).shape = (x 0).shape ∧ (y i).shape = (x 0).shape

/-- The parties call on shares of one value each: operands of one ring and one shape, that
are variables of the session's memory `mem` where the kernel looks them up in the cache, and
a value of one identity for the cache kernel. -/
def Call.WellFormed (mem : ℕ → Fin N → NdArrayRef) : Call N → Prop
  | .mulAA x y => Coherent mem x ∧ Coherent mem y ∧ SameRingShape x y
  | .matMulAA x y => Coherent mem x ∧ Coherent mem y ∧ ∃ m n p, ∀ i,
      (x i).eltype.field = (x 0).eltype.field ∧ (y i).eltype.field = (x 0).eltype.field ∧
        (x i).shape = [m, n] ∧ (y i).shape = [n, p]
  | .mulA1B x y => SameRingShape x y
  | .squareA x => Coherent mem x ∧ SameRingShape x x
  | .beaverCache v _ => ∀ i, (v i).data.buf = (v 0).data.buf ∧
      (v i).imag.map NdArrayRef.buf = (v 0).imag.map NdArrayRef.buf

/-- What a call computes from `s` when the Beaver source's draw for it meets the source's
contract, read in the ring of party 0's `x`: the product for `MulAA`, the matrix product for
`MatMulAA`, `MulA1B`'s value, the square for `SquareA`; the cache kernel has no outputs. -/
def Call.Correct (s : Sys N) : Call N → Option (Fin N → NdArrayRef) → Prop
  | .mulAA x y, some z =>
    let f := (x 0).eltype.field
    MulTriple W f s.draws (x 0).numel → ∀ idx < (x 0).numel,
      reconstruct f z idx = reconstruct f x idx * reconstruct f y idx
  | .matMulAA x y, some z =>
    let f := (x 0).eltype.field
    let m := (x 0).shape.getD 0 0
    let n := (x 0).shape.getD 1 0
    let p := (y 0).shape.getD 1 0
    DotTriple W f s.draws m n p → ∀ r < m, ∀ c < p, reconstruct f z (r * p + c) =
      ∑ l ∈ Finset.range n, reconstruct f x (r * n + l) * reconstruct f y (l * p + c)
  | .mulA1B x y, some z =>
    let f := (x 0).eltype.field
    MulTriple W f s.draws (x 0).numel → ∀ idx < (x 0).numel, reconstruct f z idx =
      (∑ i, (1 - 2 * ((y i).data idx % 2 : ℕ)) * ((x i).data idx : ZMod (2 ^ f.width))) *
          ∑ i, (((y i).data idx % 2 : ℕ) : ZMod (2 ^ f.width)) -
        ∑ i, (1 - 2 * ((y i).data idx % 2 : ℕ)) * ((x i).data idx : ZMod (2 ^ f.width)) *
          ((y i).data idx % 2 : ℕ) +
        ∑ i, ((x i).data idx : ZMod (2 ^ f.width)) * ((y i).data idx % 2 : ℕ)
  | .squareA x, some z =>
    let f := (x 0).eltype.field
    SquarePair W f s.draws (x 0).numel → ∀ idx < (x 0).numel,
      reconstruct f z idx = reconstruct f x idx ^ 2
  | .beaverCache _ _, none => True
  | _, _ => False

variable {mem : ℕ → Fin N → NdArrayRef}

/-- One call from a state that keeps the invariant, on well-formed operands: it finishes
within `8` steps, and whenever it finishes it computes what it should and keeps the
invariant. -/
theorem CacheInv.exec (hW : Replays W) (cfg : RuntimeConfig) {s : Sys N}
    (hc : CacheInv mem s.cache) {c : Call N} (hwf : c.WellFormed mem) :
    (∃ z s', c.exec W cfg 8 s = some (z, s')) ∧ ∀ fuel z s', c.exec W cfg fuel s = some (z, s') →
      c.Correct W s z ∧ CacheInv mem s'.cache := by
  cases c with
  | mulAA x y =>
    obtain ⟨hx, hy, hu⟩ := hwf
    obtain ⟨z, s', hrun, hinv, hz⟩ := hc.run_MulAA W hW hx hy cfg _ _ (fun i => (hu i).1)
      (fun i => (hu i).2.1) (fun i => (hu i).2.2.1) (fun i => (hu i).2.2.2) 0
    exact exec_of_run W some hrun (fun z s' => Call.Correct W s (.mulAA x y) z ∧
      CacheInv mem s'.cache) ⟨hz, hinv⟩
  | matMulAA x y =>
    obtain ⟨hx, hy, m, n, p, hu⟩ := hwf
    obtain ⟨z, s', hrun, hinv, hz⟩ := hc.run_MatMulAA W hW hx hy cfg _ m n p
      (fun i => (hu i).1) (fun i => (hu i).2.1) (fun i => (hu i).2.2.1) (fun i => (hu i).2.2.2) 0
    refine exec_of_run W some hrun (fun z s' => Call.Correct W s (.matMulAA x y) z ∧
      CacheInv mem s'.cache) ⟨?_, hinv⟩
    simp only [Call.Correct, (hu 0).2.2.1, (hu 0).2.2.2, List.getD_cons_zero,
      List.getD_cons_succ]
    exact hz
  | mulA1B x y =>
    obtain ⟨z, _, hrun, hz⟩ := run_MulA1B W cfg s _ _ x y (fun i => (hwf i).1)
      (fun i => (hwf i).2.1) (fun i => (hwf i).2.2.1) (fun i => (hwf i).2.2.2) 0
    exact exec_of_run W some hrun (fun z s' => Call.Correct W s (.mulA1B x y) z ∧
      CacheInv mem s'.cache) ⟨hz, hc⟩
  | squareA x =>
    obtain ⟨hx, hu⟩ := hwf
    obtain ⟨z, s', hrun, hinv, hz⟩ := hc.run_SquareA W hW hx cfg _ _ (fun i => (hu i).1)
      (fun i => (hu i).2.2.1) 2
    exact exec_of_run W some hrun (fun z s' => Call.Correct W s (.squareA x) z ∧
      CacheInv mem s'.cache) ⟨hz, hinv⟩
  | beaverCache v enable_cache =>
    exact exec_of_run W (fun _ => none) (run_BeaverCacheKernel W s v enable_cache 5)
      (fun z s' => Call.Correct W s (.beaverCache v enable_cache) z ∧ CacheInv mem s'.cache)
      ⟨trivial, hc.toggleValue enable_cache (fun i => (hwf i).1) fun i => (hwf i).2⟩

/-- The states a session reaches: from the start, any sequence of calls on well-formed
operands, each run to its end. -/
inductive Reachable (W : World N) (cfg : RuntimeConfig) (mem : ℕ → Fin N → NdArrayRef) :
    Sys N → Prop
  | init : Reachable W cfg mem (Sys.init N)
  | step {s s' : Sys N} {c : Call N} {fuel : ℕ} {z : Option (Fin N → NdArrayRef)} :
      Reachable W cfg mem s → c.WellFormed mem → c.exec W cfg fuel s = some (z, s') →
        Reachable W cfg mem s'

theorem Reachable.cacheInv (hW : Replays W) {cfg : RuntimeConfig} {s : Sys N}
    (h : Reachable W cfg mem s) : CacheInv mem s.cache := by
  induction h with
  | init => exact cacheInv_init
  | step _ hwf hexec ih => exact ((ih.exec W hW _ hwf).2 _ _ _ hexec).2

/-- The Beaver replay cache never makes a multiplication differ from the uncached one: at
every state a session reaches, under either setting of `experimental_disable_vectorization`,
every cache entry holds the opening of its variable against the masks recorded in its
descriptors, and the next call on well-formed operands finishes and computes the product (or
square) of its operands whenever its draw meets the Beaver source's contract, as it does
with nothing cached. -/
theorem replay_cache_keeps_products (hW : Replays W) (cfg : RuntimeConfig)
    (mem : ℕ → Fin N → NdArrayRef) {s : Sys N} (hs : Reachable W cfg mem s) :
    CacheInv mem s.cache ∧ ∀ c : Call N, c.WellFormed mem →
      (∃ z s', c.exec W cfg 8 s = some (z, s')) ∧
        ∀ fuel z s', c.exec W cfg fuel s = some (z, s') → c.Correct W s z := by
  have hc := hs.cacheInv W hW
  exact ⟨hc, fun c hwf => ⟨(hc.exec W hW cfg hwf).1,
    fun fuel z s' h => ((hc.exec W hW cfg hwf).2 fuel z s' h).1⟩⟩

end Sessions

/-! ## A two-party session that caches -/

/-- The sample source of `Sharing` replays what it recorded. -/
theorem replaying_replays : Replays (World.replaying N) :=
  ⟨fun _ _ _ _ _ hd hst => replayMasks_of_replay hd hst,
    fun _ _ _ _ _ hd hst => replayMasks_of_replay hd hst,
    fun _ _ _ _ _ _ hd hst => replayMasks_of_replay hd hst,
    fun _ _ _ _ _ _ hd hst => replayMasks_of_replay hd hst,
    fun _ _ _ _ hd hst => replayMasks_of_replay hd hst⟩

/-- An array of identity `0` on both parties. -/
def cachedOperand : Fin 2 → NdArrayRef :=
  fun _ => { constant (AShrTy .FM64) [1] with buf := some 0 }

/-- The session's memory: every identity holds that operand. -/
def cachedMem : ℕ → Fin 2 → NdArrayRef := fun _ => cachedOperand

/-- The operand as the cache kernel's argument. -/
def cachedValue : Fin 2 → Value := fun i => ⟨cachedOperand i, none⟩

/-- The state once the cache kernel has switched caching on for the operand. -/
def cachingOn : Sys 2 :=
  { Sys.init 2 with cache := fun i => BeaverCache.empty.toggleValue true (cachedValue i) }

theorem cachedOperand_coherent : Coherent cachedMem cachedOperand :=
  ⟨fun _ _ => rfl, fun _ _ _ => rfl⟩

theorem mulAA_cachedOperand_wellFormed :
    (Call.mulAA cachedOperand cachedOperand).WellFormed cachedMem :=
  ⟨cachedOperand_coherent, cachedOperand_coherent, fun _ => ⟨rfl, rfl, rfl, rfl⟩⟩

theorem squareA_cachedOperand_wellFormed :
    (Call.squareA cachedOperand).WellFormed cachedMem :=
  ⟨cachedOperand_coherent, fun _ => ⟨rfl, rfl, rfl, rfl⟩⟩

theorem cachingOn_reachable :
    Reachable (World.replaying 2) ⟨false, .FM64⟩ cachedMem cachingOn := by
  have h : (Call.beaverCache cachedValue true).exec (World.replaying 2) ⟨false, .FM64⟩ (0 + 3)
      (Sys.init 2) = some (none, cachingOn) := by
    simp only [Call.exec]
    rw [run_BeaverCacheKernel]
    rfl
  exact .step .init (show (Call.beaverCache cachedValue true).WellFormed cachedMem from
    fun _ => ⟨rfl, rfl⟩) h

theorem replay_cache_two_parties :
    ∃ z s₁, (Call.mulAA cachedOperand cachedOperand).exec (World.replaying 2) ⟨false, .FM64⟩ 8
        cachingOn = some (z, s₁) ∧ ((s₁.cache 0).entries 0 false).isSome ∧
      (∀ f numel, MulTriple (World.replaying 2) f s₁.draws numel ∧
        SquarePair (World.replaying 2) f s₁.draws numel) ∧
      (∀ f m k p, DotTriple (World.replaying 2) f s₁.draws m k p) ∧
      CacheInv cachedMem s₁.cache ∧ ∀ c : Call 2, c.WellFormed cachedMem →
        (∃ z s', c.exec (World.replaying 2) ⟨false, .FM64⟩ 8 s₁ = some (z, s')) ∧
          ∀ fuel z s', c.exec (World.replaying 2) ⟨false, .FM64⟩ fuel s₁ = some (z, s') →
            c.Correct (World.replaying 2) s₁ z := by
  obtain ⟨z, s₁, h, hsome⟩ : ∃ z s₁, (Call.mulAA cachedOperand cachedOperand).exec
      (World.replaying 2) ⟨false, .FM64⟩ 8 cachingOn = some (z, s₁) ∧
        ((s₁.cache 0).entries 0 false).isSome := ⟨_, _, rfl, rfl⟩
  exact ⟨z, s₁, h, hsome, fun f numel => ⟨replaying_mulTriple f _ numel,
    replaying_squarePair f _ numel⟩, fun f m k p => replaying_dotTriple f _ m k p,
    replay_cache_keeps_products (World.replaying 2) replaying_replays ⟨false, .FM64⟩ cachedMem
      (.step cachingOn_reachable mulAA_cachedOperand_wellFormed h)⟩

end Semi2k
