import Mathlib.Data.Nat.Bitwise
import Semi2k.Products
import Semi2k.PrivateProduct

/-!
# Ranks and the number of parties

`MulA1B` turns a boolean share of one bit into an arithmetic one through `yy = y & 1` and
`xx = (1 - 2 yy) x`: with two parties, `yy0 + yy1 - 2 yy0 yy1` is the XOR of the bit shares,
and the outputs share `x` times the bit (with more parties they do not; see `Products`).
`TruncAPr2` and `computeMW` are two-party protocols outright: every rank past `1` fails its
rank check while ranks `0` and `1` go on to draw a private-multiply pair, and bits beyond 128
make every party fail at once.  `MulVVS` checks its operands' owners before it draws: one
owner for both makes every party fail at once, and with two owners each party that owns
neither fails while the owners draw.  Where every party fails at the same step the run
aborts in the state it started from; where only some do, the results say what each party's
own program does.  `V2A`, on the other hand, checks no rank: a private value whose owner is
no party is shared as zero.
-/

namespace Semi2k

open NdArrayRef

/-! ## `MulA1B` with two parties -/

/-- The XOR of two bits, in a ring: `a ^ b = a + b - 2ab`. -/
theorem xor_mod_two_cast (m n k : ℕ) : (((m ^^^ n) % 2 : ℕ) : ZMod k) =
    (m % 2 : ℕ) + (n % 2 : ℕ) - 2 * (m % 2 : ℕ) * (n % 2 : ℕ) := by
  rw [Nat.xor_mod_two_eq, Nat.add_mod]
  rcases Nat.mod_two_eq_zero_or_one m with h | h <;>
    rcases Nat.mod_two_eq_zero_or_one n with h' | h' <;> simp [h, h']
  norm_num

/-- With two parties `MulA1B` multiplies: run on an arithmetic sharing of `x` and a boolean
sharing of a bit, with a triple from the Beaver source, the outputs share `x` times the XOR
of the bit shares. -/
theorem MulA1B_two_parties_multiplies_by_bit (W : World 2) (cfg : RuntimeConfig) (s : Sys 2)
    (f : FieldType) (sh : Shape) (x y : Fin 2 → NdArrayRef) (hx : ∀ i, (x i).eltype.field = f)
    (hy : ∀ i, (y i).eltype.field = f) (hxs : ∀ i, (x i).shape = sh)
    (hys : ∀ i, (y i).shape = sh) (hW : MulTriple W f s.draws sh.prod) (fuel : ℕ) :
    ∃ z s', run W (fuel + 8) s (fun i => MulA1B.proc (cfg.ctx 2 i) (x i) (y i)) = .done z s' ∧
      ∀ idx < sh.prod, reconstruct f z idx = reconstruct f x idx *
        ((((y 0).data idx ^^^ (y 1).data idx) % 2 : ℕ) : ZMod (2 ^ f.width)) := by
  obtain ⟨z, s', hrun, hz⟩ := MulA1B_reconstruct W cfg s f sh x y hx hy hxs hys hW fuel
  refine ⟨z, s', hrun, fun idx hidx => ?_⟩
  rw [hz idx hidx, xor_mod_two_cast]
  simp only [reconstruct, Fin.sum_univ_two]
  ring

theorem MulA1B_two_parties_on_bit_one :
    ∃ z s', run (World.replaying 2) (0 + 8) (Sys.init 2)
        (fun i => MulA1B.proc ((⟨false, .FM64⟩ : RuntimeConfig).ctx 2 i)
          (ofFun (AShrTy .FM64) [2] fun idx => i + idx + 3)
          (ofFun ⟨.BShr 1, .FM64⟩ [2] fun _ => 1 - i)) = .done z s' ∧
      ∀ idx < [2].prod, reconstruct .FM64 z idx =
        reconstruct .FM64 (fun i : Fin 2 => ofFun (AShrTy .FM64) [2] fun idx => i + idx + 3)
            idx *
          ((((ofFun ⟨.BShr 1, .FM64⟩ [2] fun _ => 1 - ((0 : Fin 2) : ℕ)).data idx ^^^
            (ofFun ⟨.BShr 1, .FM64⟩ [2] fun _ => 1 - ((1 : Fin 2) : ℕ)).data idx) % 2 : ℕ) :
            ZMod (2 ^ FieldType.FM64.width)) :=
  MulA1B_two_parties_multiplies_by_bit (World.replaying 2) ⟨false, .FM64⟩ (Sys.init 2) .FM64 [2]
    (fun i => ofFun (AShrTy .FM64) [2] fun idx => i + idx + 3)
    (fun i => ofFun ⟨.BShr 1, .FM64⟩ [2] fun _ => 1 - i)
    (fun _ => rfl) (fun _ => rfl) (fun _ => rfl) (fun _ => rfl) (replaying_mulTriple _ _ _) 0

/-! ## `TruncAPr2` with more parties -/

theorem getTruncField_of_lt {bits : ℕ} (h : 128 < bits) :
    getTruncField bits = .throw s!"Unsupported truncation bits: {bits}" := by
  simp [getTruncField, show ¬bits ≤ 32 by omega, show ¬bits ≤ 64 by omega,
    show ¬bits ≤ 128 by omega]

/-- Ranks `0` and `1` pass `TruncAPr2`'s checks and stand at `computeMW`'s request for a
private-multiply pair. -/
theorem TruncAPr2_of_rank_lt_two {N : ℕ} (cfg : RuntimeConfig) (j : Fin N)
    (hj : (j : ℕ) < 2) (x : NdArrayRef) (d : ℕ) (ft : FieldType)
    (hft : getTruncField d = .pure ft) :
    ∃ n k, TruncAPr2.proc (cfg.ctx N j) x d = .req (.beaverMulPriv ft n) k := by
  have hr : (j : ℕ) = 0 ∨ (j : ℕ) = 1 := by omega
  rcases hr with h | h <;>
  simp only [TruncAPr2.proc, hft, RuntimeConfig.ctx_rank, h, zero_ne_one,
    one_ne_zero, or_false, or_true, decide_True, enforce_true, computeMW, ↓reduceIte, Prog.pure_eq,
    Prog.monadLift_eq, Prog.bind_eq, wrap_mulvvs, ne_eq, decide_not, MulVVS.proc, privOwner,
    beaverMulPriv, Prog.req_bind, Prog.pure_bind, Priv2kTy_field, ofFun_eltype, RingTy_field,
    as_eq, Prog.ofExcept_ok, ofFun_shape, retype_shape, constant_shape, retype_eltype,
    Priv2kTy_owner?, Option.isSome_some, constant_eltype, Option.some.injEq, decide_False,
    Bool.not_false, Prog.ite_pure] <;> exact ⟨_, _, rfl⟩

/-- A party that owns one of `MulVVS`'s operands of two owners stands at its request for a
private-multiply pair. -/
theorem MulVVS_of_owner {N : ℕ} (cfg : RuntimeConfig) (f : FieldType) {xr yr : ℕ}
    (hxy : xr ≠ yr) (i : Fin N) (hi : (i : ℕ) = xr ∨ (i : ℕ) = yr) {x y : NdArrayRef}
    (hx : x.eltype = Priv2kTy f xr) (hy : y.eltype = Priv2kTy f yr) :
    ∃ k, MulVVS.proc (cfg.ctx N i) x y = .req (.beaverMulPriv f x.numel) k := by
  rcases hi with h | h <;>
    simp only [MulVVS.proc, privOwner, hx, hy, Priv2kTy_owner?, Priv2kTy_field, hxy, h, ne_eq,
      not_false_eq_true, decide_True, enforce_true, RuntimeConfig.ctx_rank, beaverMulPriv,
      Prog.pure_eq, Prog.monadLift_eq, Prog.bind_eq, Prog.req_bind, Prog.pure_bind, Prog.ite_pure,
      ↓reduceIte, Prog.req.injEq, true_and, exists_eq']

section Ranks

variable {N : ℕ} [NeZero N] (W : World N) (cfg : RuntimeConfig) (s : Sys N)
  (x : Fin N → NdArrayRef) (d fuel : ℕ)

/-- `V2A` does not check that the owner of its argument is a party: for an owner no party
has, it finishes as for any other, every party keeps only its PRSS difference, and the
outputs share zero whatever the value. -/
theorem V2A_owner_not_a_party (hW : PrssCorrelated W s.draws) (f : FieldType) (r : ℕ)
    (hr : N ≤ r) (sh : Shape) (v : Fin N → NdArrayRef) (hv : ∀ i, (v i).eltype = Priv2kTy f r)
    (hvs : ∀ i, (v i).shape = sh) :
    ∃ z, run W (fuel + 2) s (fun i => V2A.proc (cfg.ctx N i) (v i)) =
        .done z { s with draws := s.draws + 1 } ∧
      (∀ i, (z i).eltype = AShrTy f ∧ (z i).shape = sh) ∧ ∀ idx, reconstruct f z idx = 0 := by
  have hne : ∀ i : Fin N, (i : ℕ) ≠ r := fun i => by omega
  simp only [V2A.proc, privOwner, hv, hvs, Priv2kTy_owner?, Priv2kTy_field, genPrssPair,
    Prog.bind_eq, Prog.pure_bind, Prog.req_bind]
  rw [run_req W (fuel + 1) s _ _ _ _ (respond_genPrssPair W s f sh) fun _ => rfl]
  simp [hne]
  refine ⟨_, run_pure W fuel _ _, fun i => by simp, fun idx => ?_⟩
  simp only [reconstruct, retype_data, sub_data_cast, ofFun_eltype, RingTy_field, ofFun_data,
    ZMod.natCast_mod]
  simp [Finset.sum_sub_distrib, prss_telescope hW]

theorem V2A_owner_two_of_two :
    ∃ z, run (World.replaying 2) (0 + 2) (Sys.init 2)
        (fun i => V2A.proc ((⟨false, .FM64⟩ : RuntimeConfig).ctx 2 i)
          (ofFun (Priv2kTy .FM64 2) [1] fun _ => 7)) =
        .done z { Sys.init 2 with draws := 0 + 1 } ∧
      (∀ i, (z i).eltype = AShrTy .FM64 ∧ (z i).shape = [1]) ∧
      ∀ idx, reconstruct .FM64 z idx = 0 :=
  V2A_owner_not_a_party (World.replaying 2) ⟨false, .FM64⟩ (Sys.init 2) 0
    (prssCorrelated_replaying _) .FM64 2 le_rfl [1] (fun _ => ofFun (Priv2kTy .FM64 2) [1]
      fun _ => 7) (fun _ => rfl) (fun _ => rfl)

end Ranks

end Semi2k
