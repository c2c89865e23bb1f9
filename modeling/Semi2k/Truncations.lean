import Semi2k.Kernels.Truncation
import Semi2k.SignedRing

/-!
# Truncation is off by at most one

`TruncA` and `TruncAPr` shift a shared fixed-point value right by `bits`.  With two parties
`TruncA` is SecureML's local truncation: each party shifts its own share, which is right up to
one unless a share's signed reading comes within the secret's bound of the end of the range.
With other numbers of parties it opens `x - r` against a truncation pair instead, under the
same condition on the mask `r`.  `TruncAPr` re-centres the secret into `[0, 2^(k-1))`, opens it
masked by `R`, and rebuilds the carry out of the low `k - 1` bits from the opened top bit and
its share of `R`'s top bit; it is off by at most one, upward, for every mask.
-/

namespace Semi2k

open NdArrayRef

variable {N : ℕ} [NeZero N] (W : World N)

/-! ## `TruncA` -/

/-- The mask of the truncation pair drawn at `n`, `R = Σ r`. -/
def truncMask (W : World N) (f : FieldType) (n idx : ℕ) : ZMod (2 ^ f.width) :=
  ∑ i, ((W.trunc n i).1 idx : ZMod (2 ^ f.width))

/-- `Beaver::Trunc`'s contract at draw `n`: the shares of `rb` add up to the mask shifted
right arithmetically by `bits`. -/
def TruncPair (W : World N) (f : FieldType) (n bits numel : ℕ) : Prop :=
  ∀ idx < numel, ∑ i, ((W.trunc n i).2 idx : ZMod (2 ^ f.width)) =
    ((signedVal (truncMask W f n idx) / 2 ^ bits : ℤ) : ZMod (2 ^ f.width))

/-- `2 ^ 128` is zero in every ring of the source. -/
theorem natCast_two_pow_128 (f : FieldType) : ((2 ^ 128 : ℕ) : ZMod (2 ^ f.width)) = 0 :=
  (ZMod.natCast_zmod_eq_zero_iff_dvd _ _).2 (Nat.pow_dvd_pow 2 (by cases f <;> decide))

/-- The sample source's truncation masks add up to `-1` in every ring. -/
theorem truncMask_replaying (hN : N ≤ 2 ^ 128) (f : FieldType) (n idx : ℕ) :
    truncMask (World.replaying N) f n idx = -1 := by
  have h : 2 ^ 128 - N + (N - 1) * 1 = 2 ^ 128 - 1 := by have := NeZero.pos N; omega
  simp only [truncMask, World.replaying]
  rw [← Nat.cast_sum, sum_if_rank_zero, h, Nat.cast_sub Nat.one_le_two_pow, natCast_two_pow_128,
    Nat.cast_one, zero_sub]

/-- The sample source keeps `Beaver::Trunc`'s contract: `-1` shifted right arithmetically is
`-1` again, whatever `bits`. -/
theorem replaying_truncPair (hN : N ≤ 2 ^ 128) (f : FieldType) (n bits numel : ℕ) :
    TruncPair (World.replaying N) f n bits numel := fun idx _ => by
  have hk : 0 < f.width := by have := f.two_le_width; omega
  have hpos : (0 : ℤ) < 2 ^ (f.width - 1) := by positivity
  have hs : signedVal (-1 : ZMod (2 ^ f.width)) = -1 := by
    simpa using signedVal_intCast hk (T := -1) (by omega) (by omega)
  have hb : (0 : ℤ) < 2 ^ bits := by positivity
  have hq : (-1 : ℤ) / 2 ^ bits = -1 :=
    ((Int.ediv_emod_unique (r := 2 ^ bits - 1) hb).2 ⟨by ring, by omega, by omega⟩).1
  rw [truncMask_replaying hN, hs, hq, Int.cast_neg, Int.cast_one,
    ← truncMask_replaying hN f n idx]
  rfl

/-- With two parties `TruncA` is local: each party shifts its own share. -/
theorem run_TruncA_local (cfg : RuntimeConfig) (s : Sys N) (hN : N = 2) (x : Fin N → NdArrayRef)
    (bits fuel : ℕ) :
    run W (fuel + 1) s (fun i => TruncA.proc (cfg.ctx N i) (x i) bits) =
      .done (fun i => ((x i).arshift [bits]).retype (x i).eltype rfl) s :=
  run_of_pure W fuel s _ _ fun i => by simp [TruncA.proc, hN]

/-- Otherwise `TruncA` opens `x - r` against a truncation pair, and rank 0 adds the opening,
shifted, to its share of `rb`. -/
theorem run_TruncA_pair (cfg : RuntimeConfig) (s : Sys N) (hN : N ≠ 2) (f : FieldType)
    (sh : Shape) (x : Fin N → NdArrayRef) (hx : ∀ i, (x i).eltype.field = f)
    (hxs : ∀ i, (x i).shape = sh) (bits fuel : ℕ) :
    ∃ z s', run W (fuel + 3) s (fun i => TruncA.proc (cfg.ctx N i) (x i) bits) = .done z s' ∧
      ∀ i idx, ((z i).data idx : ZMod (2 ^ f.width)) = (W.trunc s.draws i).2 idx +
        if (i : ℕ) = 0 then
          ((signedVal (reconstruct f x idx - truncMask W f s.draws idx) / 2 ^ bits : ℤ) :
            ZMod (2 ^ f.width))
        else 0 := by
  simp only [TruncA.proc, RuntimeConfig.ctx_worldSize, if_neg hN, beaverTrunc, Prog.bind_eq,
    Prog.req_bind, hx, numel, hxs]
  rw [run_req W _ s _ _ _ _ (respond_beaverTrunc W s (fun _ => f) (fun _ => sh.prod)
    (fun _ => bits)) fun _ => rfl]
  simp only [Prog.bind_eq, Prog.pure_bind, unflattenBuffer, Prog.monadLift_eq, ringSub_ok,
    ofFun_eltype, ofFun_shape, hxs, Prog.ofExcept_ok]
  rw [run_allReduce]
  simp only [ringAdd_ok, ofFun_eltype, ofFun_shape, hxs, Prog.ofExcept_ok, Prog.pure_bind,
    reduceAdd_eltype, reduceAdd_shape, arshift_eltype, arshift_shape, sub_eltype, sub_shape,
    Prog.pure_eq, as_eq, add_eltype, RuntimeConfig.ctx_rank, Prog.ite_pure]
  refine ⟨_, _, run_pure W fuel _ _, fun i idx => ?_⟩
  set u := fun j =>
    (x j).sub (ofFun (x j).eltype sh (mkBuffer f sh.prod (W.trunc s.draws j).1).data)
  have hu : (u i).eltype.field = f := by simp [u, hx]
  have hsum : ∑ j, ((u j).data idx : ZMod (2 ^ f.width)) =
      reconstruct f x idx - truncMask W f s.draws idx := by
    simp [u, reconstruct, truncMask, sub_data_cast _ _ _ (hx _), hx, mkBuffer,
      Finset.sum_sub_distrib]
  split_ifs with h0
  · rw [retype_data, add_data_cast _ _ _ (by simp [hx]), arshift_data_cast _ (by simpa using hu),
      reduceAdd_data_cast _ _ hu, hsum, ofFun_data_cast (hx i)]
    rfl
  · simp [mkBuffer, hx, h0]

/-- `TruncA` is off by at most one, and only downward, for every number of parties: with two
parties when the first share keeps `2^l` away from the ends of the signed range, and
otherwise when the mask of the truncation pair does, for every secret within `2^l` of zero. -/
theorem TruncA_error_within_one (cfg : RuntimeConfig) (s : Sys N) (f : FieldType) (sh : Shape)
    (x : Fin N → NdArrayRef) (hx : ∀ i, (x i).eltype.field = f) (hxs : ∀ i, (x i).shape = sh)
    (d l : ℕ) (hdl : d < f.width ∧ l + 1 < f.width)
    (hsec : ∀ idx < sh.prod,
      -2 ^ l ≤ signedVal (reconstruct f x idx) ∧ signedVal (reconstruct f x idx) < 2 ^ l)
    (hshare : N = 2 → ∀ idx < sh.prod,
      -2 ^ (f.width - 1) + 2 ^ l ≤ toSigned f.width ((x 0).data idx) ∧
        toSigned f.width ((x 0).data idx) < 2 ^ (f.width - 1) - 2 ^ l)
    (hpair : N ≠ 2 → TruncPair W f s.draws d sh.prod ∧ ∀ idx < sh.prod,
      -2 ^ (f.width - 1) + 2 ^ l ≤ signedVal (truncMask W f s.draws idx) ∧
        signedVal (truncMask W f s.draws idx) < 2 ^ (f.width - 1) - 2 ^ l)
    (fuel : ℕ) :
    ∃ z s', run W (fuel + 3) s (fun i => TruncA.proc (cfg.ctx N i) (x i) d) = .done z s' ∧
      ∀ idx < sh.prod,
        signedVal (reconstruct f z idx) = signedVal (reconstruct f x idx) / 2 ^ d ∨
          signedVal (reconstruct f z idx) = signedVal (reconstruct f x idx) / 2 ^ d - 1 := by
  have hl := hdl.2
  by_cases hN : N = 2
  · subst hN
    refine ⟨_, _, run_TruncA_local W cfg s rfl x d (fuel + 2), fun idx hidx => ?_⟩
    have hrec : reconstruct f x idx = ((x 0).data idx : ZMod (2 ^ f.width)) + (x 1).data idx := by
      simp [reconstruct, Fin.sum_univ_two]
    have hu := hshare rfl idx hidx
    rw [← signedVal_natCast ((x 0).data_lt_of_field (hx 0) idx)] at hu
    have h := signedVal_ediv_add hl d hu (hrec ▸ hsec idx hidx)
    rw [← hrec] at h
    convert h using 3 <;> simp [reconstruct, Fin.sum_univ_two, arshift_data_cast _ (hx _)]
  · obtain ⟨hW, hR⟩ := hpair hN
    obtain ⟨z, s', hrun, hz⟩ := run_TruncA_pair W cfg s hN f sh x hx hxs d fuel
    refine ⟨z, s', hrun, fun idx hidx => ?_⟩
    set R := truncMask W f s.draws idx
    have hrec : reconstruct f z idx =
        ((signedVal R / 2 ^ d + signedVal (reconstruct f x idx - R) / 2 ^ d : ℤ) :
          ZMod (2 ^ f.width)) := by
      simp only [reconstruct, hz]
      rw [Finset.sum_add_distrib, hW idx hidx, sum_ite_rank 0 (NeZero.pos N)]
      push_cast
      rfl
    have h := signedVal_ediv_add hl d (hR idx hidx)
      (show -2 ^ l ≤ signedVal (R + (reconstruct f x idx - R)) ∧
          signedVal (R + (reconstruct f x idx - R)) < 2 ^ l by
        rw [add_sub_cancel]; exact hsec idx hidx)
    rw [add_sub_cancel] at h
    rwa [hrec]

/-- Two shares of `60` whose sum wraps around the 64-bit ring. -/
def wrappingShares : Fin 2 → NdArrayRef :=
  fun i => ofFun (AShrTy .FM64) [1] fun _ => if (i : ℕ) = 0 then 100 else 2 ^ 64 - 40

theorem reconstruct_wrappingShares (idx : ℕ) : reconstruct .FM64 wrappingShares idx = 60 := by
  simp only [reconstruct, wrappingShares, Fin.sum_univ_two, ofFun_data]
  decide

theorem TruncA_two_and_three_parties_within_one :
    (∃ z s', run (World.replaying 2) (0 + 3) (Sys.init 2)
        (fun i => TruncA.proc ((⟨false, .FM64⟩ : RuntimeConfig).ctx 2 i) (wrappingShares i) 2) =
          .done z s' ∧
      ∀ idx < [1].prod,
        signedVal (reconstruct .FM64 z idx) =
            signedVal (reconstruct .FM64 wrappingShares idx) / 2 ^ 2 ∨
          signedVal (reconstruct .FM64 z idx) =
            signedVal (reconstruct .FM64 wrappingShares idx) / 2 ^ 2 - 1) ∧
    ∃ z s', run (World.replaying 3) (0 + 3) (Sys.init 3)
        (fun i => TruncA.proc ((⟨false, .FM64⟩ : RuntimeConfig).ctx 3 i)
          (ofFun (AShrTy .FM64) [1] fun _ => 20 * i + 7) 2) = .done z s' ∧
      ∀ idx < [1].prod,
        signedVal (reconstruct .FM64 z idx) = signedVal (reconstruct .FM64 (fun i : Fin 3 =>
            ofFun (AShrTy .FM64) [1] fun _ => 20 * i + 7) idx) / 2 ^ 2 ∨
          signedVal (reconstruct .FM64 z idx) = signedVal (reconstruct .FM64 (fun i : Fin 3 =>
            ofFun (AShrTy .FM64) [1] fun _ => 20 * i + 7) idx) / 2 ^ 2 - 1 := by
  have h3 : ∀ idx, reconstruct .FM64 (fun i : Fin 3 => ofFun (AShrTy .FM64) [1] fun _ =>
      20 * i + 7) idx = 81 := fun idx => by
    simp only [reconstruct, Fin.sum_univ_three, ofFun_data]
    decide
  have hm : signedVal (-1 : ZMod (2 ^ FieldType.FM64.width)) = -1 := by decide
  exact ⟨TruncA_error_within_one (World.replaying 2) ⟨false, .FM64⟩ (Sys.init 2) .FM64 [1]
      wrappingShares (fun _ => rfl) (fun _ => rfl) 2 8 (by decide)
      (fun idx _ => by rw [reconstruct_wrappingShares]; decide)
      (fun _ _ _ => by simp only [wrappingShares, ofFun_data]; decide) (fun h => absurd rfl h) 0,
    TruncA_error_within_one (World.replaying 3) ⟨false, .FM64⟩ (Sys.init 3) .FM64 [1]
      (fun i => ofFun (AShrTy .FM64) [1] fun _ => 20 * i + 7)
      (fun _ => rfl) (fun _ => rfl) 2 8 (by decide)
      (fun idx _ => by rw [h3]; decide) (fun h => absurd h (by decide))
      (fun _ => ⟨replaying_truncPair (by norm_num) _ _ _ _, fun idx _ => by
        rw [truncMask_replaying (by norm_num), hm]; decide⟩) 0⟩

/-! ## `TruncAPr` -/

section TruncPr

/-- The carry of `TruncAPr` in whole numbers: with `x' < 2^(k-1)` masked by `R < 2^k`, the
opened low bits shifted by `m`, less the correlation's `R mod 2^(k-1) >> m`, plus the rebuilt
carry `rb ^ c{k-1}` at bit `k-1-m`, are the floor of `x' + R mod 2^(k-1)` against that of
`R mod 2^(k-1)`: the wrap of the opening cancels. -/
theorem truncPr_carry {k m : ℕ} (hk : 2 ≤ k) (hm : m ≤ k - 2) (x' R : ℕ) (hx : x' < 2 ^ (k - 1))
    (hR : R < 2 ^ k) :
    (((x' + R) % 2 ^ k * 2 % 2 ^ k / 2 ^ (1 + m) : ℕ) : ℤ) - (R % 2 ^ (k - 1) / 2 ^ m : ℕ) +
        (((R / 2 ^ (k - 1) : ℕ) : ℤ) + ((x' + R) % 2 ^ k / 2 ^ (k - 1) : ℕ) -
          2 * ((x' + R) % 2 ^ k / 2 ^ (k - 1) : ℕ) * (R / 2 ^ (k - 1) : ℕ)) * 2 ^ (k - 1 - m) -
        2 ^ (k - 2 - m) =
      ((x' + R % 2 ^ (k - 1)) / 2 ^ m : ℕ) - (R % 2 ^ (k - 1) / 2 ^ m : ℕ) - 2 ^ (k - 2 - m) := by
  set P := 2 ^ (k - 1) with hP
  have hP2 : 2 ^ k = P * 2 := by rw [hP, ← pow_succ]; congr 1; omega
  have hpQ : P = 2 ^ m * 2 ^ (k - 1 - m) := by rw [hP, ← pow_add]; congr 1; omega
  have hPpos : 0 < P := by positivity
  set u := x' + R % P with hu
  have hrb : R / P < 2 := by rw [Nat.div_lt_iff_lt_mul hPpos]; omega
  have he : u / P < 2 := by
    rw [Nat.div_lt_iff_lt_mul hPpos]; have := Nat.mod_lt R hPpos; omega
  have hsum : x' + R = u + R / P * P := by rw [hu, add_assoc, Nat.mod_add_div']
  -- the opening modulo `P`, its top bit, and the opening doubled
  have hlow : (x' + R) % 2 ^ k % P = u % P := by
    rw [Nat.mod_mod_of_dvd _ (by rw [hP2]; exact Dvd.intro 2 rfl), hsum,
      Nat.add_mul_mod_self_right]
  have htop : (x' + R) % 2 ^ k / P = (u / P + R / P) % 2 := by
    rw [hP2, Nat.mod_mul_right_div_self, hsum, Nat.add_mul_div_right _ _ hPpos]
  have hhat : (x' + R) % 2 ^ k * 2 % 2 ^ k / 2 ^ (1 + m) = u % P / 2 ^ m := by
    rw [hP2, Nat.mul_mod_mul_right, ← hP2, hlow, pow_add, pow_one, mul_comm 2 (2 ^ m),
      Nat.mul_div_mul_right _ _ two_pos]
  have hsplit : u / 2 ^ m = u % P / 2 ^ m + u / P * 2 ^ (k - 1 - m) := by
    have h : P * (u / P) = u / P * 2 ^ (k - 1 - m) * 2 ^ m := by rw [hpQ]; ring
    calc u / 2 ^ m = (u % P + u / P * 2 ^ (k - 1 - m) * 2 ^ m) / 2 ^ m := by
          rw [← h, Nat.mod_add_div]
      _ = _ := Nat.add_mul_div_right _ _ (by positivity)
  rw [hhat, htop, hsplit]
  generalize u % P / 2 ^ m = A
  generalize R % P / 2 ^ m = B
  generalize u / P = e at he
  generalize R / P = rb at hrb
  obtain rfl | rfl : e = 0 ∨ e = 1 := by omega
  all_goals obtain rfl | rfl : rb = 0 ∨ rb = 1 := by omega
  all_goals push_cast; ring

/-- Adding `b` moves the floor of `a` by the floor of `b`, up to one carry. -/
theorem add_div_sub_div (a b : ℕ) {p : ℕ} (hp : 0 < p) :
    (((a + b) / p : ℕ) : ℤ) - (b / p : ℕ) = (a / p : ℕ) ∨
      (((a + b) / p : ℕ) : ℤ) - (b / p : ℕ) = (a / p : ℕ) + 1 := by
  rw [Nat.add_div hp]
  split_ifs <;> [right; left] <;> push_cast <;> ring

/-- Undoing the re-centring by `2^(k-2)` after the shift by `m ≤ k - 2`. -/
theorem recentre_div {k m : ℕ} (hm : m ≤ k - 2) {v : ℤ} (hv : 0 ≤ v + 2 ^ (k - 2)) :
    (((v + 2 ^ (k - 2)).toNat / 2 ^ m : ℕ) : ℤ) - 2 ^ (k - 2 - m) = v / 2 ^ m := by
  have h : (2 : ℤ) ^ (k - 2) = 2 ^ (k - 2 - m) * 2 ^ m := by rw [← pow_add]; congr 1; omega
  rw [Int.natCast_div, Int.toNat_of_nonneg hv]
  push_cast
  rw [h, Int.add_mul_ediv_right _ _ (by positivity)]
  ring

/-- One party's output element read in the ring: its share of `-rc` and of the rebuilt carry
at bit `k-1-m`, and on rank 0 the opened bits and the re-centring. -/
theorem truncPrShare_cast (k bits rank c rc rb : ℕ) :
    ((truncPrShare k bits rank c rc rb : ℕ) : ZMod (2 ^ k)) =
      -(rc : ZMod (2 ^ k)) + ((rb : ZMod (2 ^ k)) - 2 * (c / 2 ^ (k - 1) : ℕ) * rb) *
          2 ^ (k - 1 - bits) +
        if rank = 0 then ((c * 2 % 2 ^ k / 2 ^ (1 + bits) : ℕ) : ZMod (2 ^ k)) +
          (c / 2 ^ (k - 1) : ℕ) * 2 ^ (k - 1 - bits) - 2 ^ (k - 2 - bits) else 0 := by
  unfold truncPrShare
  generalize c / 2 ^ (k - 1) = ck
  generalize c * 2 % 2 ^ k / 2 ^ (1 + bits) = ch
  split_ifs <;> simp only [natCast_ofSigned] <;> push_cast <;> ring

/-- The mask of the `TruncPr` correlation drawn at `n`, `R = Σ r`, as a `k`-bit number. -/
def truncPrMask (W : World N) (f : FieldType) (n idx : ℕ) : ℕ :=
  (∑ i, ((W.truncPr n i).1 idx : ZMod (2 ^ f.width))).val

/-- `Beaver::TruncPr`'s contract at draw `n`: the shares of `rc` add up to the mask's low
`k - 1` bits shifted right by `bits`, and those of `rb` to its top bit. -/
def TruncPrTriple (W : World N) (f : FieldType) (n bits numel : ℕ) : Prop :=
  ∀ idx < numel,
    ∑ i, ((W.truncPr n i).2.1 idx : ZMod (2 ^ f.width)) =
        (truncPrMask W f n idx % 2 ^ (f.width - 1) / 2 ^ bits : ℕ) ∧
      ∑ i, ((W.truncPr n i).2.2 idx : ZMod (2 ^ f.width)) =
        (truncPrMask W f n idx / 2 ^ (f.width - 1) : ℕ)

/-- The sample source's `TruncPr` shares add up to `0` in every ring. -/
theorem sum_truncPr_replaying (hN : N ≤ 2 ^ 128) (f : FieldType) (n idx : ℕ) :
    ∑ i, (((World.replaying N).truncPr n i).1 idx : ZMod (2 ^ f.width)) = 0 := by
  have h : 2 ^ 128 + 1 - N + (N - 1) * 1 = 2 ^ 128 := by have := NeZero.pos N; omega
  simp only [World.replaying]
  rw [← Nat.cast_sum, sum_if_rank_zero, h, natCast_two_pow_128]

/-- The sample source keeps `Beaver::TruncPr`'s contract, with the mask `0`. -/
theorem replaying_truncPrTriple (hN : N ≤ 2 ^ 128) (f : FieldType) (n bits numel : ℕ) :
    TruncPrTriple (World.replaying N) f n bits numel := fun idx _ => by
  have h0 := sum_truncPr_replaying hN f n idx
  simp only [truncPrMask, h0, ZMod.val_zero, Nat.zero_mod, Nat.zero_div, Nat.cast_zero]
  exact ⟨h0, h0⟩

/-- `TruncAPr` on all parties: one draw, one opening of `x + 2^(k-2) + r`, and each party's
element computed from the opening. -/
theorem run_TruncAPr (cfg : RuntimeConfig) (s : Sys N) (f : FieldType) (sh : Shape)
    (x : Fin N → NdArrayRef) (hx : ∀ i, (x i).eltype.field = f) (hxs : ∀ i, (x i).shape = sh)
    (bits fuel : ℕ) :
    ∃ z s', run W (fuel + 3) s (fun i => TruncAPr.proc (cfg.ctx N i) (x i) bits) = .done z s' ∧
      ∀ i idx, (z i).data idx = truncPrShare f.width bits i
          (reconstruct f x idx + 2 ^ (f.width - 2) +
            ∑ j, ((W.truncPr s.draws j).1 idx : ZMod (2 ^ f.width))).val
          ((W.truncPr s.draws i).2.1 idx % 2 ^ f.width)
          ((W.truncPr s.draws i).2.2 idx % 2 ^ f.width) % 2 ^ f.width := by
  simp only [TruncAPr.proc, beaverTruncPr, Prog.bind_eq, Prog.req_bind, hx, numel, hxs]
  rw [run_req W _ s _ _ _ _ (respond_beaverTruncPr W s (fun _ => f) (fun _ => sh.prod)
    (fun _ => bits)) fun _ => rfl]
  simp only [Prog.bind_eq, Prog.pure_bind, mkBuffer, enforce_true, decide_True]
  rw [run_allReduce]
  refine ⟨_, _, run_pure W fuel _ _, fun i idx => ?_⟩
  simp only [ofFun_data, hx]
  congr 2
  rw [← ZMod.val_natCast_of_lt ((reduceAdd _ i).data_lt_of_field (f := f) (by simp) idx),
    reduceAdd_data_cast _ _ (by simp)]
  simp [reconstruct, Finset.sum_add_distrib, sum_ite_rank 0 (NeZero.pos N), FieldType.width]

/-- `TruncAPr` is off by at most one, and only upward, for every number of parties and every
mask: on a secret in `[-2^(k-2), 2^(k-2))` and a `TruncPr` correlation that keeps its
contract, the outputs share `⌊x / 2^m⌋` or `⌊x / 2^m⌋ + 1`. -/
theorem TruncAPr_error_within_one (cfg : RuntimeConfig) (s : Sys N) (f : FieldType)
    (sh : Shape) (x : Fin N → NdArrayRef) (hx : ∀ i, (x i).eltype.field = f)
    (hxs : ∀ i, (x i).shape = sh) (m : ℕ) (hm : m ≤ f.width - 2)
    (hsec : ∀ idx < sh.prod, -2 ^ (f.width - 2) ≤ signedVal (reconstruct f x idx) ∧
      signedVal (reconstruct f x idx) < 2 ^ (f.width - 2))
    (hW : TruncPrTriple W f s.draws m sh.prod) (fuel : ℕ) :
    ∃ z s', run W (fuel + 3) s (fun i => TruncAPr.proc (cfg.ctx N i) (x i) m) = .done z s' ∧
      ∀ idx < sh.prod,
        signedVal (reconstruct f z idx) = signedVal (reconstruct f x idx) / 2 ^ m ∨
          signedVal (reconstruct f z idx) = signedVal (reconstruct f x idx) / 2 ^ m + 1 := by
  obtain ⟨z, s', hrun, hz⟩ := run_TruncAPr W cfg s f sh x hx hxs m fuel
  refine ⟨z, s', hrun, fun idx hidx => ?_⟩
  have hk := f.two_le_width
  obtain ⟨hlo, hhi⟩ := hsec idx hidx
  obtain ⟨hrc, hrb⟩ := hW idx hidx
  set v := signedVal (reconstruct f x idx)
  have hk2 : (2 : ℤ) ^ (f.width - 2) * 2 = 2 ^ (f.width - 1) := by
    rw [← pow_succ]; congr 1; omega
  -- the re-centred secret and the mask, as `k`-bit numbers
  set x' := (v + 2 ^ (f.width - 2)).toNat
  have hx' : (x' : ℤ) = v + 2 ^ (f.width - 2) := Int.toNat_of_nonneg (by omega)
  have hx'lt : x' < 2 ^ (f.width - 1) := by zify; omega
  set R := truncPrMask W f s.draws idx
  have hR : R < 2 ^ f.width := ZMod.val_lt _
  have hc : (reconstruct f x idx + 2 ^ (f.width - 2) +
      ∑ j, ((W.truncPr s.draws j).1 idx : ZMod (2 ^ f.width))).val = (x' + R) % 2 ^ f.width := by
    rw [← ZMod.val_natCast, Nat.cast_add, ← Int.cast_natCast x', hx']
    simp [R, truncPrMask, v]
  -- the outputs share the whole-number value of the carry lemma
  have hzi : ∀ i, ((z i).data idx : ZMod (2 ^ f.width)) =
      truncPrShare f.width m i ((x' + R) % 2 ^ f.width)
        ((W.truncPr s.draws i).2.1 idx % 2 ^ f.width)
        ((W.truncPr s.draws i).2.2 idx % 2 ^ f.width) := fun i => by
    rw [hz, hc, ZMod.natCast_mod]
  have hcarry := congrArg (Int.cast : ℤ → ZMod (2 ^ f.width))
    (truncPr_carry hk hm x' R hx'lt hR)
  simp only [Int.cast_add, Int.cast_sub, Int.cast_mul, Int.cast_natCast, Int.cast_pow,
    Int.cast_ofNat] at hcarry
  have hrec : reconstruct f z idx = (((x' + R % 2 ^ (f.width - 1)) / 2 ^ m : ℕ) :
      ZMod (2 ^ f.width)) - (R % 2 ^ (f.width - 1) / 2 ^ m : ℕ) - 2 ^ (f.width - 2 - m) := by
    rw [← hcarry]
    simp only [reconstruct, hzi, truncPrShare_cast, ZMod.natCast_mod, Finset.sum_add_distrib,
      sum_ite_rank 0 (NeZero.pos N), Finset.sum_neg_distrib, ← Finset.sum_mul,
      Finset.sum_sub_distrib, ← Finset.mul_sum, hrc, hrb]
    ring
  -- which is the shifted secret, or one more
  have hcentre : ((x' / 2 ^ m : ℕ) : ℤ) - 2 ^ (f.width - 2 - m) = v / 2 ^ m :=
    recentre_div hm (by omega)
  have hT : (((x' + R % 2 ^ (f.width - 1)) / 2 ^ m : ℕ) : ℤ) -
        (R % 2 ^ (f.width - 1) / 2 ^ m : ℕ) - 2 ^ (f.width - 2 - m) = v / 2 ^ m ∨
      (((x' + R % 2 ^ (f.width - 1)) / 2 ^ m : ℕ) : ℤ) -
        (R % 2 ^ (f.width - 1) / 2 ^ m : ℕ) - 2 ^ (f.width - 2 - m) = v / 2 ^ m + 1 := by
    rcases add_div_sub_div x' (R % 2 ^ (f.width - 1)) (Nat.two_pow_pos m) with h | h <;>
      [left; right] <;> omega
  have hq := ediv_two_pow_bounds m hlo hhi
  have hpos : (0 : ℤ) < 2 ^ (f.width - 2) := by positivity
  rcases hT with hT | hT <;> [left; right] <;>
  refine signedVal_eq_of_intCast (by omega) ?_ (by omega) (by omega) <;>
  rw [hrec, ← hT] <;>
  simp only [Int.cast_add, Int.cast_sub, Int.cast_natCast, Int.cast_pow, Int.cast_ofNat,
    Int.cast_one]

theorem TruncAPr_two_parties_within_one :
    ∃ z s', run (World.replaying 2) (0 + 3) (Sys.init 2)
        (fun i => TruncAPr.proc ((⟨false, .FM64⟩ : RuntimeConfig).ctx 2 i) (wrappingShares i) 2) =
          .done z s' ∧
      ∀ idx < [1].prod,
        signedVal (reconstruct .FM64 z idx) =
            signedVal (reconstruct .FM64 wrappingShares idx) / 2 ^ 2 ∨
          signedVal (reconstruct .FM64 z idx) =
            signedVal (reconstruct .FM64 wrappingShares idx) / 2 ^ 2 + 1 :=
  TruncAPr_error_within_one (World.replaying 2) ⟨false, .FM64⟩ (Sys.init 2) .FM64 [1]
    wrappingShares (fun _ => rfl) (fun _ => rfl) 2 (by decide)
    (fun idx _ => by rw [reconstruct_wrappingShares]; decide)
    (replaying_truncPrTriple (by norm_num) _ _ _ _) 0

end TruncPr

end Semi2k
