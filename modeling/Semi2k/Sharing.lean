import Semi2k.Core.Joint

/-!
# Additive sharings

A value is shared additively when the parties' arrays sum to it in the ring.  This module
states what a sharing reconstructs to, what the PRSS source promises (each party's second
array is the next party's first, so that the differences sum to zero), and the sums over
ranks the kernels' proofs need: an addend applied on one rank only is counted once.
-/

namespace Semi2k

open NdArrayRef

variable {N : ℕ}

/-- The value an additive sharing encodes at one element, in the ring of `f`. -/
def reconstruct (f : FieldType) (z : Fin N → NdArrayRef) (idx : ℕ) : ZMod (2 ^ f.width) :=
  ∑ i, ((z i).data idx : ZMod (2 ^ f.width))

/-- `genPrssPair(..., GenPrssCtrl::Both)` at draw `n`: party `i`'s second array is party
`i + 1`'s first (ranks taken modulo `N`). -/
def PrssCorrelated [NeZero N] (W : World N) (n : ℕ) : Prop :=
  ∀ i : Fin N, (W.prss n i).2 = (W.prss n (i + 1)).1

/-- `Beaver::Mul`'s contract at draw `n` for `numel` elements: whatever descriptors it is
handed, the shares it returns form a triple in the ring of `f`, `(Σ a) (Σ b) = Σ c`. -/
def MulTriple (W : World N) (f : FieldType) (n numel : ℕ) : Prop :=
  ∀ dx dy, ∀ idx < numel, (∑ i, ((W.mul n dx dy i).1 idx : ZMod (2 ^ f.width))) *
      ∑ i, ((W.mul n dx dy i).2.1 idx : ZMod (2 ^ f.width)) =
    ∑ i, ((W.mul n dx dy i).2.2 idx : ZMod (2 ^ f.width))

/-- `Beaver::Dot`'s contract at draw `n` for an `m × k` by `k × p` product, asked for as
`Dot(field, m, p, k, ...)`: whatever descriptors it is handed, `(Σ a) (Σ b) = Σ c` as matrix
products in the ring of `f`. -/
def DotTriple (W : World N) (f : FieldType) (n m k p : ℕ) : Prop :=
  ∀ dx dy, ∀ r < m, ∀ c < p,
    ∑ l ∈ Finset.range k,
        (∑ i, ((W.dot n (fun _ => (m, p, k)) dx dy i).1 (r * k + l) : ZMod (2 ^ f.width))) *
      ∑ i, ((W.dot n (fun _ => (m, p, k)) dx dy i).2.1 (l * p + c) : ZMod (2 ^ f.width)) =
    ∑ i, ((W.dot n (fun _ => (m, p, k)) dx dy i).2.2 (r * p + c) : ZMod (2 ^ f.width))

/-- `Beaver::Square`'s contract at draw `n` for `numel` elements: whatever descriptor it is
handed, the shares it returns form a square pair in the ring of `f`, `Σ b = (Σ a) ^ 2`. -/
def SquarePair (W : World N) (f : FieldType) (n numel : ℕ) : Prop :=
  ∀ dx, ∀ idx < numel, ∑ i, ((W.square n dx i).2 idx : ZMod (2 ^ f.width)) =
    (∑ i, ((W.square n dx i).1 idx : ZMod (2 ^ f.width))) ^ 2

/-! ## A source that keeps the contracts -/

/-- The masks an honest Beaver source hands out for the descriptors `d`: party `i` gets the
mask recorded in its descriptor when that is replayable, and otherwise a fresh mask holding
`i + 1` at every element. -/
def replayMasks (d : Fin N → Option ReplayDesc) (i : Fin N) : ℕ → ℕ :=
  match d i with
  | some e => if e.status = .Replay then e.mask.data else fun _ => i + 1
  | none => fun _ => i + 1

theorem replayMasks_of_replay {d : Fin N → Option ReplayDesc} {i : Fin N} {e : ReplayDesc}
    (hd : d i = some e) (hst : e.status = .Replay) : replayMasks d i = e.mask.data := by
  simp [replayMasks, hd, hst]

/-- A source that keeps every contract with shares that are not zero: the Beaver source
replays recorded masks, hands out fresh ones otherwise and completes each triple, dot triple
and square pair on party 0; the PRSS pairs are chained around the ring of parties; the
truncation masks add up to `-1` (`Trunc`) and to `0` (`TruncPr`) in every ring; the
private-multiply pair is `3 * 5 = 7 + 8`.  It shows that the contracts the kernels' results
assume can all be met at once. -/
def World.replaying (N : ℕ) : World N where
  prss _ i := (fun _ => i + 1, fun _ => (i + 1) % N + 1)
  priv _ i _ := i + 1
  mul _ dx dy i := (replayMasks dx i, replayMasks dy i, fun idx =>
    if (i : ℕ) = 0 then (∑ j, replayMasks dx j idx) * ∑ j, replayMasks dy j idx else 0)
  dot _ d dx dy i := (replayMasks dx i, replayMasks dy i, fun idx =>
    if (i : ℕ) = 0 then ∑ l ∈ Finset.range (d i).2.2,
      (∑ j, replayMasks dx j (idx / (d i).2.1 * (d i).2.2 + l)) *
        ∑ j, replayMasks dy j (l * (d i).2.1 + idx % (d i).2.1) else 0)
  square _ dx i := (replayMasks dx i, fun idx =>
    if (i : ℕ) = 0 then (∑ j, replayMasks dx j idx) ^ 2 else 0)
  trunc _ i := (fun _ => if (i : ℕ) = 0 then 2 ^ 128 - N else 1,
    fun _ => if (i : ℕ) = 0 then 2 ^ 128 - N else 1)
  truncPr _ i := (fun _ => if (i : ℕ) = 0 then 2 ^ 128 + 1 - N else 1,
    fun _ => if (i : ℕ) = 0 then 2 ^ 128 + 1 - N else 1,
    fun _ => if (i : ℕ) = 0 then 2 ^ 128 + 1 - N else 1)
  mulPriv _ i := if (i : ℕ) = 0 then (fun _ => 3, fun _ => 7) else (fun _ => 5, fun _ => 8)

/-- Around the ring of parties the second arrays are the first arrays again. -/
theorem prss_telescope [NeZero N] {W : World N} {n : ℕ} (h : PrssCorrelated W n) {R : Type}
    [AddCommMonoid R] (g : ℕ → R) (idx : ℕ) :
    ∑ i, g ((W.prss n i).2 idx) = ∑ i, g ((W.prss n i).1 idx) := by
  simp only [show ∀ i, (W.prss n i).2 = (W.prss n (i + 1)).1 from h]
  exact Fintype.sum_equiv (Equiv.addRight 1) _ _ fun _ => rfl

theorem sum_ite_rank {R : Type} [AddCommMonoid R] (r : ℕ) (hr : r < N) (g : Fin N → R) :
    ∑ i : Fin N, (if (i : ℕ) = r then g i else 0) = g ⟨r, hr⟩ := by
  rw [Finset.sum_eq_single ⟨r, hr⟩ (fun i _ hi => if_neg fun h => hi (Fin.ext h)) (by simp)]
  simp

/-- With two parties a rank that is not 0 is 1. -/
theorem ite_rank_two {β : Type} (i : Fin 2) (a b c : β) :
    (if (i : ℕ) = 0 then a else if (i : ℕ) = 1 then b else c) = if (i : ℕ) = 0 then a else b := by
  rcases i with ⟨_ | _ | _, hi⟩ <;> first | rfl | omega

/-- With two parties and two different owners, a rank that is not `x`'s owner is `y`'s. -/
theorem ite_owner_two {β : Type} {xr yr : Fin 2} (h : xr ≠ yr) (i : Fin 2) (a b c : β) :
    (if (i : ℕ) = xr then a else if (i : ℕ) = yr then b else c) =
      if (i : ℕ) = xr then a else b := by
  have := Fin.val_ne_of_ne h
  split_ifs <;> first | rfl | omega

/-- The two inputs, one per rank, multiply to `x` times `y` whichever party owns which. -/
theorem owners_mul {R : Type} [CommMonoid R] {xr yr : Fin 2} (h : xr ≠ yr) (x y : Fin 2 → R) :
    (if ((0 : Fin 2) : ℕ) = xr then x 0 else y 0) * (if ((1 : Fin 2) : ℕ) = xr then x 1 else y 1) =
      x xr * y yr := by
  fin_cases xr <;> fin_cases yr <;> simp_all [mul_comm]

/-- An addend applied on rank `r` only is counted once in the sum over ranks. -/
theorem sum_ite_add_rank {R : Type} [AddCommMonoid R] (r : ℕ) (hr : r < N) (g c : Fin N → R) :
    ∑ i : Fin N, (if (i : ℕ) = r then g i + c i else g i) = ∑ i, g i + c ⟨r, hr⟩ := by
  have h : ∀ i : Fin N,
      (if (i : ℕ) = r then g i + c i else g i) = g i + if (i : ℕ) = r then c i else 0 :=
    fun i => by split_ifs <;> simp
  rw [Finset.sum_congr rfl fun i _ => h i, Finset.sum_add_distrib, sum_ite_rank r hr]

/-- A value on rank 0 and another on every other rank. -/
theorem sum_if_rank_zero [NeZero N] (A B : ℕ) :
    ∑ i : Fin N, (if (i : ℕ) = 0 then A else B) = A + (N - 1) * B := by
  obtain ⟨M, rfl⟩ := Nat.exists_eq_succ_of_ne_zero (NeZero.ne N)
  simp [Fin.sum_univ_succ]

/-- Two ring elements that agree in `ZMod (2 ^ k)` are equal. -/
theorem eq_of_natCast_eq {k a b : ℕ} (ha : a < 2 ^ k) (hb : b < 2 ^ k)
    (h : (a : ZMod (2 ^ k)) = b) : a = b := by
  rw [ZMod.natCast_eq_natCast_iff', Nat.mod_eq_of_lt ha, Nat.mod_eq_of_lt hb] at h
  exact h

theorem NdArrayRef.data_lt_of_field {x : NdArrayRef} {f : FieldType} (h : x.eltype.field = f)
    (i : ℕ) : x.data i < 2 ^ f.width :=
  h ▸ x.data_lt i

theorem NdArrayRef.ite_data (c : Prop) [Decidable c] (A B : NdArrayRef) :
    (if c then A else B).data = if c then A.data else B.data := by
  split <;> rfl

/-- Reading an array of a fresh buffer in its own ring. -/
theorem ofFun_data_cast {t : Ty} {f : FieldType} (ht : t.field = f) (s : Shape) (d : ℕ → ℕ)
    (idx : ℕ) : ((ofFun t s d).data idx : ZMod (2 ^ f.width)) = d idx := by
  simp [ht]

theorem sub_data_cast' {f : FieldType} (u v : Fin N → NdArrayRef)
    (hu : ∀ i, (u i).eltype.field = f) (i : Fin N) (idx : ℕ) :
    (((u i).sub (v i)).data idx : ZMod (2 ^ f.width)) = (u i).data idx - (v i).data idx :=
  sub_data_cast _ _ _ (hu i)

/-- An all-reduce answers with the sum of the contributions. -/
theorem reduceAdd_data_cast {f : FieldType} (u : Fin N → NdArrayRef) (i : Fin N)
    (hu : (u i).eltype.field = f) (idx : ℕ) :
    ((reduceAdd u i).data idx : ZMod (2 ^ f.width)) =
      ∑ j, ((u j).data idx : ZMod (2 ^ f.width)) := by
  simp [hu]

/-! ## The sample source keeps the contracts -/

section Replaying

variable [NeZero N] (f : FieldType) (n : ℕ)

theorem prssCorrelated_replaying : PrssCorrelated (World.replaying N) n := fun i => by
  simp [World.replaying, Fin.val_add, Nat.add_mod]

theorem replaying_mulTriple (numel : ℕ) : MulTriple (World.replaying N) f n numel :=
  fun dx dy idx _ => by
    simp only [World.replaying, Nat.cast_ite, Nat.cast_mul, Nat.cast_sum, Nat.cast_zero]
    rw [sum_ite_rank 0 (NeZero.pos N)]

theorem replaying_squarePair (numel : ℕ) : SquarePair (World.replaying N) f n numel :=
  fun dx idx _ => by
    simp only [World.replaying, Nat.cast_ite, Nat.cast_pow, Nat.cast_sum, Nat.cast_zero]
    rw [sum_ite_rank 0 (NeZero.pos N)]

theorem replaying_dotTriple (m k p : ℕ) : DotTriple (World.replaying N) f n m k p :=
  fun dx dy r _ c hc => by
    have hdiv : (r * p + c) / p = r := by
      rw [Nat.add_comm, Nat.add_mul_div_right _ _ (by omega), Nat.div_eq_of_lt hc, zero_add]
    have hmod : (r * p + c) % p = c := by rw [Nat.add_comm, Nat.add_mul_mod_self_right,
      Nat.mod_eq_of_lt hc]
    simp only [World.replaying, Nat.cast_ite, Nat.cast_mul, Nat.cast_sum, Nat.cast_zero, hdiv,
      hmod]
    rw [sum_ite_rank 0 (NeZero.pos N)]

end Replaying

end Semi2k
