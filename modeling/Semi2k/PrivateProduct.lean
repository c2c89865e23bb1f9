import Semi2k.Kernels.Truncation
import Semi2k.Truncations
import Mathlib.Tactic.LinearCombination

/-!
# The private product and `TruncAPr2`

`MulVVS` multiplies a value party 0 holds by one party 1 holds: each masks its input with its
share `a` of a private-multiply pair and sends it to the other, and the two local products
add up to the product.  `computeMW` uses it to share `MW(x) = Wrap(x0, x1, L) + MSB(x)` of a
two-party sharing, and `TruncAPr2` subtracts `MW(x) * 2^(k - bits)` from the local shifts: for
a secret within a quarter of the ring of zero, the result is the shifted secret or one more,
for every sharing.
-/

namespace Semi2k

open NdArrayRef

variable (W : World 2)

/-! ## `MulVVS` -/

/-- `Beaver::MulPriv`'s contract at draw `n`: party 0's `a` times party 1's `a` is the sum of
their `c`. -/
def MulPrivPair (f : FieldType) (n numel : ℕ) : Prop :=
  ∀ idx < numel, ((W.mulPriv n 0).1 idx : ZMod (2 ^ f.width)) * (W.mulPriv n 1).1 idx =
    (W.mulPriv n 0).2 idx + (W.mulPriv n 1).2 idx

/-- The sample source keeps `Beaver::MulPriv`'s contract: `3 * 5 = 7 + 8`. -/
theorem replaying_mulPrivPair (f : FieldType) (n numel : ℕ) :
    MulPrivPair (World.replaying 2) f n numel := fun _ _ => by
  simp only [World.replaying, Fin.isValue, Fin.val_zero, Fin.val_one, if_true, one_ne_zero,
    if_false, Nat.cast_ofNat]
  norm_num

/-- `MulVVS` as one phase of a two-party run, whatever the private-multiply pair: one draw,
and one exchange that takes from each channel between the parties the message just put on
it, after which the outputs add up to the product of `x`, held by its owner, and `y`, held by
the other party, plus `c0 + c1 - a0 a1`. -/
theorem run_MulVVS_phase (cfg : RuntimeConfig) (s : Sys 2) (f : FieldType) (sh : Shape)
    (x y : Fin 2 → NdArrayRef) (xr yr : Fin 2) (hxy : xr ≠ yr)
    (hx : ∀ i, (x i).eltype = Priv2kTy f xr) (hy : ∀ i, (y i).eltype = Priv2kTy f yr)
    (hxs : ∀ i, (x i).shape = sh) (hys : ∀ i, (y i).shape = sh)
    (hempty : s.inbox 0 1 = [] ∧ s.inbox 1 0 = []) :
    ∃ z s', (∀ {β : Type} (k : Fin 2 → NdArrayRef → Prog β) (fuel : ℕ),
        run W (fuel + 3) s (fun i => (MulVVS.proc (cfg.ctx 2 i) (x i) (y i)).bind (k i)) =
          run W fuel s' fun i => k i (z i)) ∧
      s'.draws = s.draws + 1 ∧ s'.cache = s.cache ∧ s'.inbox = s.inbox ∧
      (∀ i, (z i).eltype = AShrTy f ∧ (z i).shape = sh) ∧
      ∀ idx < sh.prod, reconstruct f z idx = (x xr).data idx * (y yr).data idx +
        (((W.mulPriv s.draws 0).2 idx : ZMod (2 ^ f.width)) + (W.mulPriv s.draws 1).2 idx -
          (W.mulPriv s.draws 0).1 idx * (W.mulPriv s.draws 1).1 idx) := by
  set inp := fun i : Fin 2 => if (i : ℕ) = xr then x i else y i with hinp
  have hinf : ∀ i, (inp i).eltype.field = f := fun i => by
    simp only [hinp]; split_ifs <;> simp [hx, hy]
  have hins : ∀ i, (inp i).shape = sh := fun i => by
    simp only [hinp]; split_ifs <;> simp [hxs, hys]
  set a := fun i : Fin 2 => ofFun (RingTy f) sh (W.mulPriv s.draws i).1
  set c := fun i : Fin 2 => ofFun (RingTy f) sh (W.mulPriv s.draws i).2
  set u := fun i : Fin 2 => (a i).add (inp i)
  have hus : ∀ j, (u j).shape = sh := fun j => by simp [u, a]
  set tmp := fun i : Fin 2 => { ofFun (AShrTy f) [sh.prod] (u (i + 1)).data with shape := sh }
  refine ⟨fun i => if (i : ℕ) = 0 then ((tmp i).mul (inp i)).add (c i)
    else ((tmp i).mul (a i).neg).add (c i), ?_⟩
  apply Exists.intro
  refine ⟨fun k fuel => ?run, ?_, ?_, ?_, fun i => ?_, ?_⟩
  case run =>
    have hxy' : (xr : ℕ) ≠ yr := Fin.val_ne_of_ne hxy
    simp only [MulVVS.proc, privOwner, hx, hy, Priv2kTy_owner?, Priv2kTy_field, Prog.bind_eq,
      Prog.pure_bind, Prog.bind_assoc, RuntimeConfig.ctx_rank, ite_owner_two hxy, Prog.pure_eq,
      Prog.ite_pure, beaverMulPriv, Prog.req_bind, numel, hxs, ne_eq, hxy', not_false_eq_true,
      decide_True, enforce_true]
    rw [run_req W _ s _ _ _ _ (respond_beaverMulPriv W s (fun _ => f) (fun _ => sh.prod))
      fun _ => rfl]
    have hfold : ∀ i : Fin 2, (if (i : ℕ) = xr then x i else y i) = inp i := fun _ => rfl
    simp only [hfold, Prog.pure_bind, mkBuffer, enforce_true, decide_True, Prog.liftM_eq,
      unflattenBuffer, ringAdd_ok, ofFun_eltype, ofFun_shape, RingTy_field, hinf, hins,
      Prog.ofExcept_ok]
    rw [run_sendAsync, run_recv W fuel _ _ _ (fun i => u (i + 1))]
    · have h0 : ∀ i (t : NdArrayRef), t.eltype = AShrTy f → t.shape = sh →
          ringMul t (inp i) = .ok (t.mul (inp i)) := fun i t ht hts =>
        ringMul_ok (by rw [ht, hinf]; rfl) (by rw [hts, hins])
      simp only [reshape, numel, List.prod_singleton, hus, ofFun_shape, if_true, h0,
        Prog.ofExcept_ok, Prog.pure_bind, ringMul_ok, ringAdd_ok, AShrTy_field, RingTy_field,
        ofFun_eltype, mul_eltype, mul_shape, neg_eltype, neg_shape, Prog.ite_pure, ite_rank_two]
      rfl
    · intro i
      rcases i with ⟨_ | _ | _, hi⟩
      · simp [hempty, KernelEvalContext.prevRank, KernelEvalContext.nextRank, u]
      · simp [hempty, KernelEvalContext.prevRank, KernelEvalContext.nextRank, u]
      · omega
  · rfl
  · rfl
  · funext d src
    simp only [KernelEvalContext.prevRank, KernelEvalContext.nextRank, RuntimeConfig.ctx_rank,
      RuntimeConfig.ctx_worldSize]
    rcases d with _ | _ | d <;> rcases src with _ | _ | src <;> simp_arith [hempty]
  · dsimp only
    split_ifs <;> simp [tmp, c]
  · intro idx hidx
    have hf : ∀ j, (tmp j).eltype.field = f := fun j => rfl
    have ha : ∀ j, (a j).eltype.field = f := fun j => rfl
    have hu : ∀ j, ((u j).data idx : ZMod (2 ^ f.width)) = (a j).data idx + (inp j).data idx :=
      fun j => add_data_cast _ _ _ rfl
    have ht : ∀ j, ((tmp j).data idx : ZMod (2 ^ f.width)) = (u (j + 1)).data idx :=
      fun j => by simp [tmp]
    have hprod := owners_mul hxy (fun i => ((x i).data idx : ZMod (2 ^ f.width)))
      fun i => ((y i).data idx : ZMod (2 ^ f.width))
    simp only [reconstruct, Fin.sum_univ_two, Fin.isValue, Fin.val_zero, Fin.val_one,
      ↓reduceIte, one_ne_zero]
    rw [add_data_cast _ _ _ (show ((tmp 0).mul (inp 0)).eltype.field = f from hf 0),
      add_data_cast _ _ _ (show ((tmp 1).mul (a 1).neg).eltype.field = f from hf 1),
      mul_data_cast _ _ _ (hf 0), mul_data_cast _ _ _ (hf 1), neg_data_cast _ _ (ha 1), ht, ht,
      hu, hu, ← hprod]
    simp only [a, c, inp, ofFun_data_cast rfl,
      apply_ite (fun v : NdArrayRef => (v.data idx : ZMod (2 ^ f.width))), Fin.isValue, zero_add,
      show (1 : Fin 2) + 1 = 0 from rfl]
    ring

/-- `MulVVS` as one phase of a two-party run: with a private-multiply pair, the outputs share
the product of `x` and `y`, whichever of the two parties owns `x`. -/
theorem run_MulVVS (cfg : RuntimeConfig) (s : Sys 2) (f : FieldType) (sh : Shape)
    (x y : Fin 2 → NdArrayRef) (xr yr : Fin 2) (hxy : xr ≠ yr)
    (hx : ∀ i, (x i).eltype = Priv2kTy f xr) (hy : ∀ i, (y i).eltype = Priv2kTy f yr)
    (hxs : ∀ i, (x i).shape = sh) (hys : ∀ i, (y i).shape = sh)
    (hempty : s.inbox 0 1 = [] ∧ s.inbox 1 0 = []) (hW : MulPrivPair W f s.draws sh.prod) :
    ∃ z s', (∀ {β : Type} (k : Fin 2 → NdArrayRef → Prog β) (fuel : ℕ),
        run W (fuel + 3) s (fun i => (MulVVS.proc (cfg.ctx 2 i) (x i) (y i)).bind (k i)) =
          run W fuel s' fun i => k i (z i)) ∧
      s'.draws = s.draws + 1 ∧ s'.cache = s.cache ∧
      (∀ i, (z i).eltype = AShrTy f ∧ (z i).shape = sh) ∧
      ∀ idx < sh.prod, reconstruct f z idx = (x xr).data idx * (y yr).data idx := by
  obtain ⟨z, s', hrun, hd, hc, -, hz, hrec⟩ :=
    run_MulVVS_phase W cfg s f sh x y xr yr hxy hx hy hxs hys hempty
  refine ⟨z, s', hrun, hd, hc, hz, fun idx hidx => ?_⟩
  rw [hrec idx hidx, hW idx hidx, sub_self, add_zero]

/-- `MulVVS` turns two privately held arrays into additive shares of their product: whichever
of the two parties owns `x`, for every private-multiply pair with `a0 a1 = c0 + c1`, the
outputs of the two ranks add up to `x * y` at every element. -/
theorem MulVVS_reconstructs_product (cfg : RuntimeConfig) (s : Sys 2) (f : FieldType)
    (sh : Shape) (x y : Fin 2 → NdArrayRef) (xr yr : Fin 2) (hxy : xr ≠ yr)
    (hx : ∀ i, (x i).eltype = Priv2kTy f xr) (hy : ∀ i, (y i).eltype = Priv2kTy f yr)
    (hxs : ∀ i, (x i).shape = sh) (hys : ∀ i, (y i).shape = sh)
    (hempty : s.inbox 0 1 = [] ∧ s.inbox 1 0 = []) (hW : MulPrivPair W f s.draws sh.prod)
    (fuel : ℕ) :
    ∃ z s', run W (fuel + 4) s (fun i => MulVVS.proc (cfg.ctx 2 i) (x i) (y i)) = .done z s' ∧
      ∀ idx < sh.prod, reconstruct f z idx = (x xr).data idx * (y yr).data idx := by
  obtain ⟨z, s', hrun, -, -, -, hrec⟩ :=
    run_MulVVS W cfg s f sh x y xr yr hxy hx hy hxs hys hempty hW
  have hrun' := hrun (fun _ => Prog.pure) (fuel + 1)
  simp only [Prog.bind_pure] at hrun'
  exact ⟨z, s', by rw [hrun', run_pure], hrec⟩

theorem MulVVS_product_owners_swapped :
    ∃ z s', run (World.replaying 2) (0 + 4) (Sys.init 2)
        (fun i => MulVVS.proc ((⟨false, .FM64⟩ : RuntimeConfig).ctx 2 i)
          (ofFun (Priv2kTy .FM64 1) [1] fun _ => 6) (ofFun (Priv2kTy .FM64 0) [1] fun _ => 7)) =
          .done z s' ∧
      ∀ idx < [1].prod, reconstruct .FM64 z idx =
        (ofFun (Priv2kTy .FM64 1) [1] fun _ => 6).data idx *
          (ofFun (Priv2kTy .FM64 0) [1] fun _ => 7).data idx :=
  MulVVS_reconstructs_product (World.replaying 2) ⟨false, .FM64⟩ (Sys.init 2) .FM64 [1]
    (fun _ => ofFun (Priv2kTy .FM64 1) [1] fun _ => 6)
    (fun _ => ofFun (Priv2kTy .FM64 0) [1] fun _ => 7) 1 0
    (by decide) (fun _ => rfl) (fun _ => rfl) (fun _ => rfl) (fun _ => rfl) ⟨rfl, rfl⟩
    (replaying_mulPrivPair _ _ _) 0

/-! ## `computeMW` and `TruncAPr2` -/

section MW

/-- `getTruncField(bits)` is wide enough for `bits`. -/
theorem le_width_of_getTruncField {bits : ℕ} {ft : FieldType} (h : getTruncField bits = .pure ft) :
    bits ≤ ft.width := by
  unfold getTruncField at h
  split_ifs at h <;> cases h <;> simp [FieldType.width, FieldType.sizeOf] <;> omega

theorem mod_of_lt_two_mul {a m : ℕ} (h : a < 2 * m) : a % m = if a < m then a else a - m := by
  split_ifs with h'
  · exact Nat.mod_eq_of_lt h'
  · rw [Nat.mod_eq_sub_mod (by omega), Nat.mod_eq_of_lt (by omega)]

/-- The wrap of a two-share sum and its top bit: `x0 + x1` is the signed secret plus
`(Wrap + MSB) * 2^k`. -/
theorem add_eq_signed_add_wrap_msb {k : ℕ} (hk : 1 ≤ k) {x0 x1 : ℕ} (h0 : x0 < 2 ^ k)
    (h1 : x1 < 2 ^ k) :
    (x0 + x1 : ℤ) = toSigned k ((x0 + x1) % 2 ^ k) +
      (((if 2 ^ k ≤ x0 + x1 then 1 else 0) +
        (if 2 ^ (k - 1) ≤ (x0 + x1) % 2 ^ k then 1 else 0) : ℕ) : ℤ) * 2 ^ k := by
  obtain ⟨Q, hQ, hk2⟩ : ∃ Q, 2 ^ (k - 1) = Q ∧ 2 ^ k = 2 * Q :=
    ⟨_, rfl, by rw [← pow_succ']; congr 1; omega⟩
  have hQz : (2 : ℤ) ^ (k - 1) = Q := by exact_mod_cast hQ
  have hk2z : (2 : ℤ) ^ k = 2 * Q := by exact_mod_cast hk2
  simp only [toSigned, hQ, hk2, hQz, hk2z] at h0 h1 ⊢
  rw [mod_of_lt_two_mul (show x0 + x1 < 2 * (2 * Q) by omega)]
  split_ifs <;> push_cast <;> omega

/-- `computeMW`'s two bits and rank 0's correction add up to `Wrap + MSB` when the secret is
within a quarter of the ring of zero: the unsigned comparisons on both ranks, case by case
over the quarter `x0` lies in. -/
theorem mw_wrap_msb {k : ℕ} (hk : 2 ≤ k) {x0 x1 : ℕ} (h0 : x0 < 2 ^ k) (h1 : x1 < 2 ^ k)
    (hx : -2 ^ (k - 2) ≤ toSigned k ((x0 + x1) % 2 ^ k) ∧
      toSigned k ((x0 + x1) % 2 ^ k) < 2 ^ (k - 2)) :
    mwBit k 0 x0 * mwBit k 1 x1 + (1 - if x0 < 2 ^ (k - kBitsLeftOut) % 2 ^ k then 1 else 0) =
      (if 2 ^ k ≤ x0 + x1 then 1 else 0) + (if 2 ^ (k - 1) ≤ (x0 + x1) % 2 ^ k then 1 else 0) := by
  obtain ⟨Q, hQ, hk4, hk2⟩ : ∃ Q, 2 ^ (k - 2) = Q ∧ 2 ^ k = 4 * Q ∧ 2 ^ (k - 1) = 2 * Q :=
    ⟨_, rfl, by rw [show k = k - 2 + 2 by omega, pow_add]; simp; ring,
      by rw [show k - 1 = k - 2 + 1 by omega, pow_succ]; ring⟩
  have hQpos : 0 < Q := hQ ▸ by positivity
  have hQz : (2 : ℤ) ^ (k - 2) = Q := by exact_mod_cast hQ
  have hk4z : (2 : ℤ) ^ k = 4 * Q := by exact_mod_cast hk4
  simp only [mwBit, kBitsLeftOut, toSigned, hQ, hk4, hk2, hQz, hk4z, ↓reduceIte, one_ne_zero,
    ge_iff_le] at h0 h1 hx ⊢
  rw [Nat.mod_eq_of_lt (show Q < 4 * Q by omega), Nat.mod_eq_of_lt (show Q * 2 < 4 * Q by omega)]
  -- each residue is one of two values, and the secret's lies in the outer quarters
  have ht : x0 < Q ∧ (x0 + 4 * Q - Q) % (4 * Q) = x0 + 3 * Q ∨
      Q ≤ x0 ∧ (x0 + 4 * Q - Q) % (4 * Q) = x0 - Q := by
    rw [mod_of_lt_two_mul (show x0 + 4 * Q - Q < 2 * (4 * Q) by omega)]
    split_ifs <;> omega
  have hr : x0 + x1 < 4 * Q ∧ (x0 + x1) % (4 * Q) = x0 + x1 ∨
      4 * Q ≤ x0 + x1 ∧ (x0 + x1) % (4 * Q) = x0 + x1 - 4 * Q := by
    rw [mod_of_lt_two_mul (show x0 + x1 < 2 * (4 * Q) by omega)]
    split_ifs <;> omega
  generalize (x0 + 4 * Q - Q) % (4 * Q) = t at ht ⊢
  generalize (x0 + x1) % (4 * Q) = r at hr hx ⊢
  have hq : r < Q ∨ 3 * Q ≤ r := by
    split_ifs at hx <;> omega
  clear hx hQz hk4z hQ hk4 hk2 hk
  split_ifs <;> omega

/-- `MW`'s shares live in the ring of `getTruncField(bits)`, of width `k' ≥ bits`; cast into the
`k`-bit ring and scaled by `2^(k - bits)` they still add up to `MW * 2^(k - bits)`. -/
theorem mw_transfer {k k' d : ℕ} (hd : d ≤ k') (m0 m1 M : ℕ)
    (h : ((m0 + m1 : ℕ) : ZMod (2 ^ k')) = M) :
    (((m0 % 2 ^ k + m1 % 2 ^ k) * 2 ^ (k - d) : ℕ) : ZMod (2 ^ k)) = (M * 2 ^ (k - d) : ℕ) := by
  rw [ZMod.natCast_eq_natCast_iff] at h ⊢
  have hdvd : 2 ^ k ∣ 2 ^ k' * 2 ^ (k - d) := by
    rw [← pow_add]; exact pow_dvd_pow 2 (by omega)
  have h1 : (m0 % 2 ^ k + m1 % 2 ^ k) * 2 ^ (k - d) ≡ (m0 + m1) * 2 ^ (k - d) [MOD 2 ^ k] :=
    Nat.ModEq.mul_right _ (Nat.ModEq.add (Nat.mod_modEq _ _) (Nat.mod_modEq _ _))
  exact h1.trans ((h.mul_right' _).of_dvd hdvd)

/-- The local shifts of two shares, less `MW * 2^(k-d)` and plus one, are the shifted secret or
one more. -/
theorem truncPr2_floor {k d : ℕ} (hd : d ≤ k) (x0 x1 M : ℕ) {x : ℤ}
    (h : (x0 + x1 : ℤ) = x + M * 2 ^ k) :
    ((x0 / 2 ^ d : ℕ) : ℤ) + (x1 / 2 ^ d : ℕ) - M * 2 ^ (k - d) + 1 = x / 2 ^ d ∨
      ((x0 / 2 ^ d : ℕ) : ℤ) + (x1 / 2 ^ d : ℕ) - M * 2 ^ (k - d) + 1 = x / 2 ^ d + 1 := by
  have hfloor : (((x0 + x1) / 2 ^ d : ℕ) : ℤ) = x / 2 ^ d + M * 2 ^ (k - d) := by
    have hsplit : (2 : ℤ) ^ k = 2 ^ (k - d) * 2 ^ d := by rw [← pow_add, Nat.sub_add_cancel hd]
    rw [Int.natCast_div]
    push_cast
    rw [h, hsplit, ← mul_assoc, Int.add_mul_ediv_right _ _ (by positivity)]
  rcases add_div_sub_div x0 x1 (Nat.two_pow_pos d) with h' | h' <;> [right; left] <;> omega

/-- The two ranks' elements of `TruncAPr2`'s output, reconstructed: when the narrow ring's
shares of `MW` add up to `computeMW`'s value, they read back as the shifted secret or one
more. -/
theorem truncPr2Share_pair {k k' d : ℕ} (hk : 2 ≤ k) (hd : d ≤ k) (hd' : d ≤ k')
    {x0 x1 m0 m1 : ℕ} (h0 : x0 < 2 ^ k) (h1 : x1 < 2 ^ k)
    (hx : -2 ^ (k - 2) ≤ toSigned k ((x0 + x1) % 2 ^ k) ∧
      toSigned k ((x0 + x1) % 2 ^ k) < 2 ^ (k - 2))
    (hm : ((m0 + m1 : ℕ) : ZMod (2 ^ k')) = (mwBit k 0 x0 * mwBit k 1 x1 +
      (1 - if x0 < 2 ^ (k - kBitsLeftOut) % 2 ^ k then 1 else 0) : ℕ)) :
    signedVal ((truncPr2Share k d 0 x0 m0 : ZMod (2 ^ k)) +
        (truncPr2Share k d 1 x1 m1 : ZMod (2 ^ k))) = toSigned k ((x0 + x1) % 2 ^ k) / 2 ^ d ∨
      signedVal ((truncPr2Share k d 0 x0 m0 : ZMod (2 ^ k)) +
        (truncPr2Share k d 1 x1 m1 : ZMod (2 ^ k))) =
        toSigned k ((x0 + x1) % 2 ^ k) / 2 ^ d + 1 := by
  set M := (if 2 ^ k ≤ x0 + x1 then 1 else 0) +
    (if 2 ^ (k - 1) ≤ (x0 + x1) % 2 ^ k then 1 else 0)
  have hT := mw_transfer (k := k) hd' m0 m1 M (by rw [hm, mw_wrap_msb hk h0 h1 hx])
  have hcast : (truncPr2Share k d 0 x0 m0 : ZMod (2 ^ k)) +
      (truncPr2Share k d 1 x1 m1 : ZMod (2 ^ k)) =
      ((((x0 / 2 ^ d : ℕ) : ℤ) + (x1 / 2 ^ d : ℕ) - M * 2 ^ (k - d) + 1 : ℤ) : ZMod (2 ^ k)) := by
    simp only [truncPr2Share, natCast_ofSigned]
    generalize x0 / 2 ^ d = q0 at *
    generalize x1 / 2 ^ d = q1 at *
    generalize m0 % 2 ^ k = r0 at *
    generalize m1 % 2 ^ k = r1 at *
    push_cast at hT ⊢
    linear_combination -hT
  have hb := ediv_two_pow_bounds d hx.1 hx.2
  have hle := two_pow_succ_le (show k - 2 + 1 < k by omega)
  have hpos : (0 : ℤ) < 2 ^ (k - 2) := by positivity
  rw [hcast]
  rcases truncPr2_floor hd x0 x1 M (add_eq_signed_add_wrap_msb (by omega) h0 h1) with h | h <;>
  rw [h] <;> [left; right] <;> exact signedVal_intCast (by omega) (by omega) (by omega)

end MW

/-- `computeMW` as one phase of a two-party run, whatever the private-multiply pair: its one
exchange leaves every channel as it was, and with a pair the private product of the two
ranks' bits, with rank 0's correction added, shares `mwBit0 * mwBit1 + (1 - [x0 < L/4])` in
the ring of `getTruncField(bits)`. -/
theorem run_computeMW_phase (cfg : RuntimeConfig) (s : Sys 2) (f : FieldType) (sh : Shape)
    (x : Fin 2 → NdArrayRef) (hx : ∀ i, (x i).eltype.field = f) (hxs : ∀ i, (x i).shape = sh)
    (d : ℕ) (ft : FieldType) (hft : getTruncField d = .pure ft)
    (hempty : s.inbox 0 1 = [] ∧ s.inbox 1 0 = []) :
    ∃ mw s', (∀ {β : Type} (k : Fin 2 → NdArrayRef → Prog β) (fuel : ℕ),
        run W (fuel + 3) s (fun i => (computeMW (cfg.ctx 2 i) (x i) d).bind (k i)) =
          run W fuel s' fun i => k i (mw i)) ∧
      (∀ i, (mw i).shape = sh) ∧ s'.inbox = s.inbox ∧
      (MulPrivPair W ft s.draws sh.prod → ∀ idx < sh.prod, reconstruct ft mw idx =
        ((mwBit f.width 0 ((x 0).data idx) * mwBit f.width 1 ((x 1).data idx) +
          (1 - if (x 0).data idx < 2 ^ (f.width - kBitsLeftOut) % 2 ^ f.width then 1 else 0) :
            ℕ) : ZMod (2 ^ ft.width))) := by
  set X := fun i : Fin 2 => if (i : ℕ) = 0 then
      (ofFun (RingTy ft) sh fun idx => mwBit f.width i ((x i).data idx)).retype (Priv2kTy ft 0) rfl
    else constant (Priv2kTy ft 0) sh
  set Y := fun i : Fin 2 => if (i : ℕ) = 0 then constant (Priv2kTy ft 1) sh
    else (ofFun (RingTy ft) sh fun idx => mwBit f.width i ((x i).data idx)).retype
      (Priv2kTy ft 1) rfl
  obtain ⟨z, s', hrun, -, -, hin, hz, hrec⟩ := run_MulVVS_phase W cfg s ft sh X Y 0 1 (by decide)
    (fun i => by simp only [X]; split_ifs <;> rfl) (fun i => by simp only [Y]; split_ifs <;> rfl)
    (fun i => by simp only [X]; split_ifs <;> rfl) (fun i => by simp only [Y]; split_ifs <;> rfl)
    hempty
  have hr : ∀ i : Fin 2, (i : ℕ) = 0 ∨ (i : ℕ) = 1 := fun i => by omega
  have hz1 : ∀ i, (z i).eltype = AShrTy ft := fun i => (hz i).1
  have hz2 : ∀ i, (z i).shape = sh := fun i => (hz i).2
  have hw : f.sizeOf * 8 = f.width := rfl
  refine ⟨fun i => if (i : ℕ) = 0 then ofFun (AShrTy ft) sh (fun idx => (z i).data idx +
      (1 - if (x i).data idx < 2 ^ (f.width - kBitsLeftOut) % 2 ^ f.width then 1 else 0))
    else z i, s', fun k fuel => ?_, ?_, hin, fun hW idx hidx => ?_⟩
  · simp only [computeMW, hft, Prog.pure_bind, Prog.bind_eq, RuntimeConfig.ctx_rank,
      Prog.pure_eq, Prog.monadLift_eq, Prog.liftM_eq, as_eq, RingTy_field, Priv2kTy_field,
      ofFun_eltype, Prog.ofExcept_ok, wrap_mulvvs, hr, decide_True, enforce_true, if_true,
      Prog.ite_pure, Prog.bind_assoc, apply_ite Prod.fst, apply_ite Prod.snd,
      apply_ite NdArrayRef.shape, apply_ite NdArrayRef.eltype, ite_self, retype_shape,
      retype_eltype, constant_shape, constant_eltype, ofFun_shape, Priv2kTy_owner?,
      Option.isSome_some, ne_eq, Option.some.injEq, zero_ne_one, not_false_eq_true, hx, hxs,
      eq_self_iff_true, hw]
    rw [hrun]
    congr 1
    funext i
    rcases hr i with h | h <;> simp [h, hz1, hz2, FieldType.width]
  · intro i
    dsimp only
    split_ifs <;> simp [hz2]
  · have h0 : reconstruct ft z idx = (X 0).data idx * (Y 1).data idx := by
      rw [hrec idx hidx, hW idx hidx, sub_self, add_zero]
    simp only [reconstruct, Fin.sum_univ_two, Fin.isValue, Fin.val_zero, Fin.val_one, ↓reduceIte,
      one_ne_zero] at h0 ⊢
    rw [ofFun_data_cast rfl, Nat.cast_add, Nat.cast_add, Nat.cast_mul, add_right_comm, h0]
    simp [X, Y]

/-- `computeMW` as one phase of a two-party run: with a private-multiply pair, the private
product of the two ranks' bits, with rank 0's correction added, shares
`mwBit0 * mwBit1 + (1 - [x0 < L/4])` in the ring of `getTruncField(bits)`. -/
theorem run_computeMW (cfg : RuntimeConfig) (s : Sys 2) (f : FieldType) (sh : Shape)
    (x : Fin 2 → NdArrayRef) (hx : ∀ i, (x i).eltype.field = f) (hxs : ∀ i, (x i).shape = sh)
    (d : ℕ) (ft : FieldType) (hft : getTruncField d = .pure ft)
    (hempty : s.inbox 0 1 = [] ∧ s.inbox 1 0 = []) (hW : MulPrivPair W ft s.draws sh.prod) :
    ∃ mw s', (∀ {β : Type} (k : Fin 2 → NdArrayRef → Prog β) (fuel : ℕ),
        run W (fuel + 3) s (fun i => (computeMW (cfg.ctx 2 i) (x i) d).bind (k i)) =
          run W fuel s' fun i => k i (mw i)) ∧
      (∀ i, (mw i).shape = sh) ∧
      ∀ idx < sh.prod, reconstruct ft mw idx =
        ((mwBit f.width 0 ((x 0).data idx) * mwBit f.width 1 ((x 1).data idx) +
          (1 - if (x 0).data idx < 2 ^ (f.width - kBitsLeftOut) % 2 ^ f.width then 1 else 0) :
            ℕ) : ZMod (2 ^ ft.width)) := by
  obtain ⟨mw, s', hrun, hsh, -, hrec⟩ := run_computeMW_phase W cfg s f sh x hx hxs d ft hft hempty
  exact ⟨mw, s', hrun, hsh, hrec hW⟩

/-- Every number of bits up to 128 has a narrow ring. -/
theorem getTruncField_of_le {bits : ℕ} (h : bits ≤ 128) : ∃ ft, getTruncField bits = .pure ft := by
  unfold getTruncField
  split_ifs <;> exact ⟨_, rfl⟩

/-- `computeMW` computes `Wrap + MSB` exactly: for every two-party sharing whose secret is
within a quarter of the ring of zero and every private-multiply pair of the narrow ring, the
two shares it returns add up, in the narrow ring, to the wrap of `x0 + x1` plus the top bit
of the secret, which is what its bits and rank 0's correction add up to. -/
theorem computeMW_shares_wrap_msb (cfg : RuntimeConfig) (s : Sys 2) (f : FieldType) (sh : Shape)
    (x : Fin 2 → NdArrayRef) (hx : ∀ i, (x i).eltype.field = f) (hxs : ∀ i, (x i).shape = sh)
    (d : ℕ) (hd : d ≤ 128) (hempty : s.inbox 0 1 = [] ∧ s.inbox 1 0 = [])
    (hsec : ∀ idx < sh.prod,
      -2 ^ (f.width - 2) ≤ toSigned f.width (((x 0).data idx + (x 1).data idx) % 2 ^ f.width) ∧
        toSigned f.width (((x 0).data idx + (x 1).data idx) % 2 ^ f.width) < 2 ^ (f.width - 2))
    (hW : ∀ ft, getTruncField d = .pure ft → MulPrivPair W ft s.draws sh.prod) (fuel : ℕ) :
    ∃ ft, getTruncField d = .pure ft ∧ ∃ mw s',
      run W (fuel + 4) s (fun i => computeMW (cfg.ctx 2 i) (x i) d) = .done mw s' ∧
      ∀ idx < sh.prod,
        reconstruct ft mw idx = (((if 2 ^ f.width ≤ (x 0).data idx + (x 1).data idx then 1 else 0) +
          (if 2 ^ (f.width - 1) ≤ ((x 0).data idx + (x 1).data idx) % 2 ^ f.width then 1 else 0) :
            ℕ) : ZMod (2 ^ ft.width)) ∧
        mwBit f.width 0 ((x 0).data idx) * mwBit f.width 1 ((x 1).data idx) +
            (1 - if (x 0).data idx < 2 ^ (f.width - kBitsLeftOut) % 2 ^ f.width then 1 else 0) =
          (if 2 ^ f.width ≤ (x 0).data idx + (x 1).data idx then 1 else 0) +
            (if 2 ^ (f.width - 1) ≤ ((x 0).data idx + (x 1).data idx) % 2 ^ f.width then 1 else 0) := by
  obtain ⟨ft, hft⟩ := getTruncField_of_le hd
  obtain ⟨mw, s', hrun, -, hmw⟩ := run_computeMW W cfg s f sh x hx hxs d ft hft hempty (hW ft hft)
  have hrun' := hrun (fun _ => Prog.pure) (fuel + 1)
  simp only [Prog.bind_pure] at hrun'
  refine ⟨ft, hft, mw, s', by rw [hrun', run_pure], fun idx hidx => ?_⟩
  have hbits := mw_wrap_msb f.two_le_width (data_lt_of_field (hx 0) idx)
    (data_lt_of_field (hx 1) idx) (hsec idx hidx)
  exact ⟨by rw [hmw idx hidx, hbits], hbits⟩

theorem computeMW_on_wrapping_shares :
    ∃ ft, getTruncField 2 = .pure ft ∧ ∃ mw s',
      run (World.replaying 2) (0 + 4) (Sys.init 2)
        (fun i => computeMW ((⟨false, .FM64⟩ : RuntimeConfig).ctx 2 i) (wrappingShares i) 2) =
          .done mw s' ∧
      ∀ idx < [1].prod,
        reconstruct ft mw idx = (((if 2 ^ 64 ≤ 100 + (2 ^ 64 - 40) then 1 else 0) +
          (if 2 ^ (64 - 1) ≤ (100 + (2 ^ 64 - 40)) % 2 ^ 64 then 1 else 0) : ℕ) :
            ZMod (2 ^ ft.width)) ∧
        mwBit 64 0 100 * mwBit 64 1 (2 ^ 64 - 40) +
            (1 - if 100 < 2 ^ (64 - kBitsLeftOut) % 2 ^ 64 then 1 else 0) =
          (if 2 ^ 64 ≤ 100 + (2 ^ 64 - 40) then 1 else 0) +
            (if 2 ^ (64 - 1) ≤ (100 + (2 ^ 64 - 40)) % 2 ^ 64 then 1 else 0) :=
  computeMW_shares_wrap_msb (World.replaying 2) ⟨false, .FM64⟩ (Sys.init 2) .FM64 [1]
    wrappingShares (fun _ => rfl) (fun _ => rfl) 2 (by decide) ⟨rfl, rfl⟩
    (fun _ _ => by simp only [wrappingShares, ofFun_data]; decide)
    (fun _ _ => replaying_mulPrivPair _ _ _) 0

/-- `TruncAPr2` is off by at most one, and only upward, for every two-party sharing of a secret
within a quarter of the ring of zero, whatever the private-multiply pair of the narrow ring. -/
theorem TruncAPr2_error_within_one (cfg : RuntimeConfig) (s : Sys 2) (f : FieldType) (sh : Shape)
    (x : Fin 2 → NdArrayRef) (hx : ∀ i, (x i).eltype.field = f) (hxs : ∀ i, (x i).shape = sh)
    (d : ℕ) (hd : 1 ≤ d ∧ d < f.width) (ft : FieldType) (hft : getTruncField d = .pure ft)
    (hempty : s.inbox 0 1 = [] ∧ s.inbox 1 0 = [])
    (hsec : ∀ idx < sh.prod, -2 ^ (f.width - kBitsLeftOut) ≤ signedVal (reconstruct f x idx) ∧
      signedVal (reconstruct f x idx) < 2 ^ (f.width - kBitsLeftOut))
    (hW : MulPrivPair W ft s.draws sh.prod) (fuel : ℕ) :
    ∃ z s', run W (fuel + 4) s (fun i => TruncAPr2.proc (cfg.ctx 2 i) (x i) d) = .done z s' ∧
      ∀ idx < sh.prod,
        signedVal (reconstruct f z idx) = signedVal (reconstruct f x idx) / 2 ^ d ∨
          signedVal (reconstruct f z idx) = signedVal (reconstruct f x idx) / 2 ^ d + 1 := by
  obtain ⟨mw, s', hrun, -, hmw⟩ := run_computeMW W cfg s f sh x hx hxs d ft hft hempty hW
  have hr : ∀ i : Fin 2, (i : ℕ) = 0 ∨ (i : ℕ) = 1 := fun i => by omega
  refine ⟨fun i => ofFun (x i).eltype sh fun idx =>
    truncPr2Share f.width d i ((x i).data idx) ((mw i).data idx), s', ?_, fun idx hidx => ?_⟩
  · simp only [TruncAPr2.proc, hft, Prog.pure_bind, Prog.bind_eq, RuntimeConfig.ctx_rank, hr,
      decide_True, enforce_true, Prog.pure_eq, hx, hxs]
    rw [show fuel + 4 = fuel + 1 + 3 from rfl, hrun, run_pure]
    rfl
  · have hsig : signedVal (reconstruct f x idx) =
        toSigned f.width (((x 0).data idx + (x 1).data idx) % 2 ^ f.width) := by
      rw [reconstruct, Fin.sum_univ_two, ← Nat.cast_add, signedVal, ZMod.val_natCast]
    have hm := hmw idx hidx
    rw [reconstruct, Fin.sum_univ_two, ← Nat.cast_add] at hm
    have hs := hsec idx hidx
    rw [hsig, kBitsLeftOut] at hs
    rw [hsig]
    simpa only [reconstruct, Fin.sum_univ_two, ofFun_data_cast (hx _)] using
      truncPr2Share_pair f.two_le_width hd.2.le (le_width_of_getTruncField hft)
        (data_lt_of_field (hx 0) idx) (data_lt_of_field (hx 1) idx) hs hm

theorem TruncAPr2_two_parties_within_one :
    ∃ z s', run (World.replaying 2) (0 + 4) (Sys.init 2)
        (fun i => TruncAPr2.proc ((⟨false, .FM64⟩ : RuntimeConfig).ctx 2 i) (wrappingShares i) 2) =
          .done z s' ∧
      ∀ idx < [1].prod,
        signedVal (reconstruct .FM64 z idx) =
            signedVal (reconstruct .FM64 wrappingShares idx) / 2 ^ 2 ∨
          signedVal (reconstruct .FM64 z idx) =
            signedVal (reconstruct .FM64 wrappingShares idx) / 2 ^ 2 + 1 :=
  TruncAPr2_error_within_one (World.replaying 2) ⟨false, .FM64⟩ (Sys.init 2) .FM64 [1]
    wrappingShares (fun _ => rfl) (fun _ => rfl) 2 (by decide) .FM32 rfl ⟨rfl, rfl⟩
    (fun idx _ => by rw [reconstruct_wrappingShares]; decide) (replaying_mulPrivPair _ _ _) 0

end Semi2k
