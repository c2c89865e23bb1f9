import Semi2k.Products

/-!
# Batched and separate openings agree

`MulOpen` opens `x - a` and `y - b` in one all-reduce of their concatenation, unless
`experimental_disable_vectorization` is set, when each is opened by an all-reduce of its
own.  The two paths group the same contributions differently, and what the parties compute
from the openings does not depend on the grouping: `MulAA` and `MatMulAA` read an opening
only at its first `numel` elements.

An array of the model has a value at every index, while the source's holds `numel`
elements: two arrays of one type and shape that agree on those are the same array of the
source (`SameValue`), and caches that store such openings under the same descriptors are
the same cache (`SameValues`).  The batched path leaves other values past `numel` than the
separate one, and only there do the two runs differ.
-/

namespace Semi2k

open NdArrayRef

/-- The same array of the source: one element type, one shape, and the same `numel`
elements. -/
def NdArrayRef.SameValue (u v : NdArrayRef) : Prop :=
  u.eltype = v.eltype ∧ u.shape = v.shape ∧ ∀ idx < u.numel, u.data idx = v.data idx

theorem NdArrayRef.SameValue.refl (u : NdArrayRef) : u.SameValue u :=
  ⟨rfl, rfl, fun _ _ => rfl⟩

/-- The same cache of the source: caching on for the same identities, and under each one
and each kind of product the same descriptor with the same opening. -/
def BeaverCache.SameValues (c c' : BeaverCache) : Prop :=
  c.enabled = c'.enabled ∧ ∀ b k,
    Option.Rel (fun e e' => e.1 = e'.1 ∧ e.2.SameValue e'.2) (c.entries b k) (c'.entries b k)

theorem BeaverCache.SameValues.refl (c : BeaverCache) : c.SameValues c :=
  ⟨rfl, fun b k => by
    cases c.entries b k
    · exact .none
    · exact .some ⟨rfl, SameValue.refl _⟩⟩

/-- Storing the same array into the same cache gives the same cache. -/
theorem BeaverCache.SameValues.store {c c' : BeaverCache} (h : c.SameValues c') (x : NdArrayRef)
    (mmul : Bool) (xc : Cache) {o o' : NdArrayRef} (ho : o.SameValue o') :
    (c.store x mmul xc o).SameValues (c'.store x mmul xc o') := by
  unfold BeaverCache.store
  split_ifs
  · refine ⟨by simp [h.1], fun b k => ?_⟩
    rw [setCache_entries, setCache_entries, h.1]
    split_ifs
    · exact Option.Rel.some ⟨rfl, ho⟩
    · exact h.2 b k
  · exact h

theorem mulStores_sameValues (c : BeaverCache) (x y : NdArrayRef) (mmul : Bool) (ma mb : Buffer)
    {X X' Y Y' : NdArrayRef} (hX : X.SameValue X') (hY : Y.SameValue Y') :
    (mulStores c x y mmul ma mb X Y).SameValues (mulStores c x y mmul ma mb X' Y') :=
  ((BeaverCache.SameValues.refl c).store x mmul _ hX).store y mmul _ hY

variable {N : ℕ}

/-- Two openings of one sharing against one mask are the same array. -/
theorem IsOpening.sameValue {f : FieldType} {n : ℕ} {x : Fin N → NdArrayRef} {m : Fin N → ℕ → ℕ}
    {i : Fin N} {o o' : NdArrayRef} (hf : (x i).eltype.field = f) (hn : (x i).numel = n)
    (ho : IsOpening f n x m i o) (ho' : IsOpening f n x m i o') : o.SameValue o' := by
  refine ⟨ho.1.trans ho'.1.symm, ho.2.1.trans ho'.2.1.symm, fun idx hidx => ?_⟩
  have hidx' : idx < n := by rwa [← hn, numel, ← ho.2.1]
  exact eq_of_natCast_eq (data_lt_of_field (by rw [ho.1, hf]) idx)
    (data_lt_of_field (by rw [ho'.1, hf]) idx) (by rw [ho.2.2 idx hidx', ho'.2.2 idx hidx'])

variable [NeZero N] (W : World N)

/-- Under any two configurations, and so with vectorization on or off, `MulAA` on operands
that each hit the cache on every party or on none ends in the same way: every party's output
is the same array, one triple is drawn in both runs, the inboxes are alike and every party's
cache is the same cache.  Only the grouping of the messages differs. -/
theorem MulAA_vectorization_agrees (cfg cfg' : RuntimeConfig) (s : Sys N) (f : FieldType)
    (sh : Shape) (x y : Fin N → NdArrayRef) (hx : ∀ i, (x i).eltype.field = f)
    (hy : ∀ i, (y i).eltype.field = f) (hxs : ∀ i, (x i).shape = sh)
    (hys : ∀ i, (y i).shape = sh) (mx my : Prop) [Decidable mx] [Decidable my]
    (hsx : ∀ i, ((s.cache i).getCache (x i) false).replay_desc.status = .Init ↔ mx)
    (hsy : ∀ i, ((s.cache i).getCache (y i) false).replay_desc.status = .Init ↔ my)
    (hox : ¬mx → ∀ i, ((s.cache i).getCache (x i) false).open_cache.eltype = (x i).eltype ∧
      ((s.cache i).getCache (x i) false).open_cache.shape = sh)
    (hoy : ¬my → ∀ i, ((s.cache i).getCache (y i) false).open_cache.eltype = (y i).eltype ∧
      ((s.cache i).getCache (y i) false).open_cache.shape = sh) (fuel : ℕ) :
    ∃ z z' s₁ s₁', run W (fuel + 8) s (fun i => MulAA.proc (cfg.ctx N i) (x i) (y i)) =
        .done z s₁ ∧
      run W (fuel + 8) s (fun i => MulAA.proc (cfg'.ctx N i) (x i) (y i)) = .done z' s₁' ∧
      (∀ i, (z i).SameValue (z' i)) ∧ s₁.draws = s₁'.draws ∧ s₁.inbox = s₁'.inbox ∧
      ∀ i, (s₁.cache i).SameValues (s₁'.cache i) := by
  obtain ⟨X, Y, z, _, hXY, hrun, hz⟩ :=
    run_MulAA_shares W cfg s f sh x y hx hy hxs hys mx my hsx hsy hox hoy fuel
  obtain ⟨X', Y', z', _, hXY', hrun', hz'⟩ :=
    run_MulAA_shares W cfg' s f sh x y hx hy hxs hys mx my hsx hsy hox hoy fuel
  have hX : ∀ i, (X i).SameValue (X' i) ∧ (X i).shape = sh := fun i => by
    by_cases h : mx
    · exact ⟨IsOpening.sameValue (hx i) (congrArg List.prod (hxs i)) ((hXY i).1 h)
        ((hXY' i).1 h), ((hXY i).1 h).2.1.trans (hxs i)⟩
    · rw [(hXY i).2.1 h, (hXY' i).2.1 h]
      exact ⟨SameValue.refl _, (hox h i).2⟩
  have hY : ∀ i, (Y i).SameValue (Y' i) ∧ (Y i).shape = sh := fun i => by
    by_cases h : my
    · exact ⟨IsOpening.sameValue (hy i) (congrArg List.prod (hys i)) ((hXY i).2.2.1 h)
        ((hXY' i).2.2.1 h), ((hXY i).2.2.1 h).2.1.trans (hys i)⟩
    · rw [(hXY i).2.2.2 h, (hXY' i).2.2.2 h]
      exact ⟨SameValue.refl _, (hoy h i).2⟩
  refine ⟨z, z', _, _, hrun, hrun', fun i => ?_, rfl, rfl, fun i =>
    mulStores_sameValues _ _ _ _ _ _ (hX i).1 (hY i).1⟩
  refine ⟨(hz i).1.trans (hz' i).1.symm, (hz i).2.1.trans (hz' i).2.1.symm, fun idx hidx => ?_⟩
  have hidx' : idx < sh.prod := by rwa [numel, (hz i).2.1] at hidx
  have hXd := (hX i).1.2.2 idx (by rwa [numel, (hX i).2])
  have hYd := (hY i).1.2.2 idx (by rwa [numel, (hY i).2])
  exact eq_of_natCast_eq (data_lt_of_field (by rw [(hz i).1, hx]) idx)
    (data_lt_of_field (by rw [(hz' i).1, hx]) idx) (by rw [(hz i).2.2, (hz' i).2.2, hXd, hYd])

theorem MulAA_batched_and_separate_agree :
    ∃ z z' s₁ s₁', run (World.replaying 2) (0 + 8) (Sys.init 2)
        (fun i => MulAA.proc ((⟨false, .FM64⟩ : RuntimeConfig).ctx 2 i)
          (ofFun (AShrTy .FM64) [2] fun idx => i + idx + 3)
          (ofFun (AShrTy .FM64) [2] fun idx => 5 * i + idx + 1)) = .done z s₁ ∧
      run (World.replaying 2) (0 + 8) (Sys.init 2)
        (fun i => MulAA.proc ((⟨true, .FM64⟩ : RuntimeConfig).ctx 2 i)
          (ofFun (AShrTy .FM64) [2] fun idx => i + idx + 3)
          (ofFun (AShrTy .FM64) [2] fun idx => 5 * i + idx + 1)) = .done z' s₁' ∧
      (∀ i, (z i).SameValue (z' i)) ∧ s₁.draws = s₁'.draws ∧ s₁.inbox = s₁'.inbox ∧
      ∀ i, (s₁.cache i).SameValues (s₁'.cache i) :=
  MulAA_vectorization_agrees (World.replaying 2) ⟨false, .FM64⟩ ⟨true, .FM64⟩ (Sys.init 2) .FM64
    [2] (fun i => ofFun (AShrTy .FM64) [2] fun idx => i + idx + 3)
    (fun i => ofFun (AShrTy .FM64) [2] fun idx => 5 * i + idx + 1)
    (fun _ => rfl) (fun _ => rfl) (fun _ => rfl) (fun _ => rfl) True True
    (fun _ => iff_true_intro rfl) (fun _ => iff_true_intro rfl) (fun h => absurd trivial h)
    (fun h => absurd trivial h) 0

/-- The same for the matrix product: under any two configurations `MatMulAA` on operands
that each hit the cache on every party or on none ends in the same way, every party's
`m × p` output the same array, with one draw, alike inboxes and the same caches. -/
theorem MatMulAA_vectorization_agrees (cfg cfg' : RuntimeConfig) (s : Sys N) (f : FieldType)
    (m n p : ℕ) (x y : Fin N → NdArrayRef) (hx : ∀ i, (x i).eltype.field = f)
    (hy : ∀ i, (y i).eltype.field = f) (hxs : ∀ i, (x i).shape = [m, n])
    (hys : ∀ i, (y i).shape = [n, p]) (mx my : Prop) [Decidable mx] [Decidable my]
    (hsx : ∀ i, ((s.cache i).getCache (x i) true).replay_desc.status = .Init ↔ mx)
    (hsy : ∀ i, ((s.cache i).getCache (y i) true).replay_desc.status = .Init ↔ my)
    (hox : ¬mx → ∀ i, ((s.cache i).getCache (x i) true).open_cache.eltype = (x i).eltype ∧
      ((s.cache i).getCache (x i) true).open_cache.shape = [m, n])
    (hoy : ¬my → ∀ i, ((s.cache i).getCache (y i) true).open_cache.eltype = (y i).eltype ∧
      ((s.cache i).getCache (y i) true).open_cache.shape = [n, p]) (fuel : ℕ) :
    ∃ z z' s₁ s₁', run W (fuel + 8) s (fun i => MatMulAA.proc (cfg.ctx N i) (x i) (y i)) =
        .done z s₁ ∧
      run W (fuel + 8) s (fun i => MatMulAA.proc (cfg'.ctx N i) (x i) (y i)) = .done z' s₁' ∧
      (∀ i, (z i).SameValue (z' i)) ∧ s₁.draws = s₁'.draws ∧ s₁.inbox = s₁'.inbox ∧
      ∀ i, (s₁.cache i).SameValues (s₁'.cache i) := by
  obtain ⟨X, Y, z, _, hXY, hrun, hz⟩ :=
    run_MatMulAA_shares W cfg s f m n p x y hx hy hxs hys mx my hsx hsy hox hoy fuel
  obtain ⟨X', Y', z', _, hXY', hrun', hz'⟩ :=
    run_MatMulAA_shares W cfg' s f m n p x y hx hy hxs hys mx my hsx hsy hox hoy fuel
  have hX : ∀ i, (X i).SameValue (X' i) ∧ (X i).shape = [m, n] := fun i => by
    by_cases h : mx
    · exact ⟨IsOpening.sameValue (hx i) (by simp [numel, hxs]) ((hXY i).1 h) ((hXY' i).1 h),
        ((hXY i).1 h).2.1.trans (hxs i)⟩
    · rw [(hXY i).2.1 h, (hXY' i).2.1 h]
      exact ⟨SameValue.refl _, (hox h i).2⟩
  have hY : ∀ i, (Y i).SameValue (Y' i) ∧ (Y i).shape = [n, p] := fun i => by
    by_cases h : my
    · exact ⟨IsOpening.sameValue (hy i) (by simp [numel, hys]) ((hXY i).2.2.1 h)
        ((hXY' i).2.2.1 h), ((hXY i).2.2.1 h).2.1.trans (hys i)⟩
    · rw [(hXY i).2.2.2 h, (hXY' i).2.2.2 h]
      exact ⟨SameValue.refl _, (hoy h i).2⟩
  refine ⟨z, z', _, _, hrun, hrun', fun i => ?_, rfl, rfl, fun i =>
    mulStores_sameValues _ _ _ _ _ _ (hX i).1 (hY i).1⟩
  refine ⟨(hz i).1.trans (hz' i).1.symm, (hz i).2.1.trans (hz' i).2.1.symm, fun idx hidx => ?_⟩
  have hidx' : idx < m * p := by simpa [numel, (hz i).2.1] using hidx
  have hp : 0 < p := Nat.pos_of_ne_zero fun h => by simp [h] at hidx'
  obtain ⟨r, c, hc, rfl⟩ : ∃ r c, c < p ∧ r * p + c = idx :=
    ⟨idx / p, idx % p, Nat.mod_lt _ hp, Nat.div_add_mod' idx p⟩
  have hr : r < m := Nat.lt_of_mul_lt_mul_right (lt_of_le_of_lt (Nat.le_add_right _ c) hidx')
  have hXd : ∀ l ∈ Finset.range n,
      ((X i).data (r * n + l) : ZMod (2 ^ f.width)) = (X' i).data (r * n + l) := fun l hl => by
    rw [(hX i).1.2.2 _ (by simpa [numel, (hX i).2] using index_lt_mul hr (Finset.mem_range.1 hl))]
  have hYd : ∀ l ∈ Finset.range n,
      ((Y i).data (l * p + c) : ZMod (2 ^ f.width)) = (Y' i).data (l * p + c) := fun l hl => by
    rw [(hY i).1.2.2 _ (by simpa [numel, (hY i).2] using index_lt_mul (Finset.mem_range.1 hl) hc)]
  refine eq_of_natCast_eq (data_lt_of_field (by rw [(hz i).1, hx]) _)
    (data_lt_of_field (by rw [(hz' i).1, hx]) _) ?_
  rw [(hz i).2.2 r c hc, (hz' i).2.2 r c hc]
  refine congrArg₂ (· + ·) (congrArg₂ (· + ·) (congrArg₂ (· + ·)
    (Finset.sum_congr rfl fun l hl => by rw [hXd l hl])
    (Finset.sum_congr rfl fun l hl => by rw [hYd l hl])) rfl) ?_
  split_ifs
  exacts [Finset.sum_congr rfl fun l hl => by rw [hXd l hl, hYd l hl], rfl]

theorem MatMulAA_batched_and_separate_agree :
    ∃ z z' s₁ s₁', run (World.replaying 2) (0 + 8) (Sys.init 2)
        (fun i => MatMulAA.proc ((⟨false, .FM64⟩ : RuntimeConfig).ctx 2 i)
          (ofFun (AShrTy .FM64) [2, 3] fun idx => i + idx + 2)
          (ofFun (AShrTy .FM64) [3, 1] fun idx => 3 * i + idx + 1)) = .done z s₁ ∧
      run (World.replaying 2) (0 + 8) (Sys.init 2)
        (fun i => MatMulAA.proc ((⟨true, .FM64⟩ : RuntimeConfig).ctx 2 i)
          (ofFun (AShrTy .FM64) [2, 3] fun idx => i + idx + 2)
          (ofFun (AShrTy .FM64) [3, 1] fun idx => 3 * i + idx + 1)) = .done z' s₁' ∧
      (∀ i, (z i).SameValue (z' i)) ∧ s₁.draws = s₁'.draws ∧ s₁.inbox = s₁'.inbox ∧
      ∀ i, (s₁.cache i).SameValues (s₁'.cache i) :=
  MatMulAA_vectorization_agrees (World.replaying 2) ⟨false, .FM64⟩ ⟨true, .FM64⟩ (Sys.init 2)
    .FM64 2 3 1 (fun i => ofFun (AShrTy .FM64) [2, 3] fun idx => i + idx + 2)
    (fun i => ofFun (AShrTy .FM64) [3, 1] fun idx => 3 * i + idx + 1)
    (fun _ => rfl) (fun _ => rfl) (fun _ => rfl) (fun _ => rfl) True True
    (fun _ => iff_true_intro rfl) (fun _ => iff_true_intro rfl) (fun h => absurd trivial h)
    (fun h => absurd trivial h) 0

end Semi2k
