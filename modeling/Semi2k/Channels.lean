import Semi2k.CacheSessions
import Semi2k.PrivateProduct

/-!
# The point-to-point channels

`MulVVS` is the one kernel of the file that talks to a single party (`TruncAPr2` does so
through it): each of the two parties sends its masked input to the next rank and receives
the previous rank's.  Every other kernel reaches the other parties only through all-reduces,
gathers, the randomness sources and its own cache, so on any input and however its run ends
it leaves every channel as it was (`OffChannel`, `run_inbox_of_offChannel`).  `MulVVS` and
`TruncAPr2` take from each channel the one message they put there.  So no state a session
reaches holds a message in flight, and a `MulVVS` run at any point of a two-party session
receives the message sent in its own call and leaves the channels empty for the next.
-/

namespace Semi2k

open NdArrayRef

variable {N : ℕ} {α : Type}

/-- The requests that use a point-to-point channel. -/
def Request.usesChannel : Request → Bool
  | .sendAsync _ _ | .recv _ _ => true
  | _ => false

/-- The state a run ends in. -/
def Outcome.state : Outcome N α → Sys N
  | .done _ s => s
  | .aborted _ s => s
  | .stuck s => s

namespace Prog

variable {β : Type}

/-- A program that never sends to one party or receives from one. -/
def OffChannel : Prog α → Prop
  | .pure _ => True
  | .throw _ => True
  | .req r k => r.usesChannel = false ∧ ∀ x, OffChannel (k x)

theorem offChannel_req {r : Request} {k : Response → Prog α} (hr : r.usesChannel = false)
    (hk : ∀ x, (k x).OffChannel) : (Prog.req r k).OffChannel :=
  ⟨hr, hk⟩

theorem offChannel_ofExcept (e : Except String α) : (ofExcept e).OffChannel := by
  cases e <;> trivial

theorem offChannel_liftM (e : Except String α) : (liftM e : Prog α).OffChannel :=
  offChannel_ofExcept e

theorem OffChannel.bind {p : Prog α} {f : α → Prog β} (hp : p.OffChannel)
    (hf : ∀ a, (f a).OffChannel) : (p >>= f).OffChannel := by
  induction p with
  | pure a => exact hf a
  | throw m => trivial
  | req r k ih => exact ⟨hp.1, fun x => ih x (hp.2 x)⟩

theorem OffChannel.cacheAdvance {p : Prog α} (hp : p.OffChannel) (c : BeaverCache) :
    (p.cacheAdvance c).1.OffChannel := by
  cases p with
  | pure a => exact hp
  | throw m => exact hp
  | req r k =>
    cases h : r.onCache with
    | none => simpa [Prog.cacheAdvance, Prog.cacheOp?, h] using hp
    | some g => simpa [Prog.cacheAdvance, Prog.cacheOp?, h] using hp.2 _

theorem offChannel_ite {c : Prop} [Decidable c] {p q : Prog α} (hp : p.OffChannel)
    (hq : q.OffChannel) : (if c then p else q).OffChannel := by
  split_ifs <;> assumption

end Prog

/-! ## Runs that stay off the channels -/

section Frame

variable [NeZero N] (W : World N)

/-- Answering requests that use no channel leaves every channel as it was. -/
theorem respond_inbox {s s' : Sys N} {r : Fin N → Request} {resp : Fin N → Response}
    (h : respond W s r = some (resp, s')) (hr : (r 0).usesChannel = false) :
    s'.inbox = s.inbox := by
  unfold respond at h
  cases h0 : r 0 <;> simp only [h0, Request.usesChannel, Bool.true_eq_false] at hr h <;>
    simp only [Option.map_eq_some', Prod.mk.injEq, reduceCtorEq] at h <;>
    obtain ⟨_, _, _, rfl⟩ := h <;> rfl

/-- Parties that never use a channel leave every channel as it was, however the run ends. -/
theorem run_inbox_of_offChannel (fuel : ℕ) (s : Sys N) (p : Fin N → Prog α)
    (hp : ∀ i, (p i).OffChannel) : (run W fuel s p).state.inbox = s.inbox := by
  induction fuel generalizing s p with
  | zero => rfl
  | succ fuel ih =>
    rw [run]
    split
    · rfl
    split
    · rfl
    split_ifs with hc
    · exact ih _ _ fun i => (hp i).cacheAdvance _
    split
    · rfl
    rename_i rk hrk
    have hreq : ∀ i, p i = .req (rk i).1 (rk i).2 := fun i => by
      have := allOf_some hrk i
      revert this
      cases p i <;> simp only [Prog.req?, reduceCtorEq, Option.some.injEq, false_implies]
      intro h; rw [← h]
    split
    · rfl
    rename_i resp s' hresp
    have hoff : ∀ i, (rk i).1.usesChannel = false ∧ ∀ x, ((rk i).2 x).OffChannel := fun i => by
      simpa [hreq i, Prog.OffChannel] using hp i
    rw [ih _ _ fun i => (hoff i).2 _, respond_inbox W hresp (hoff 0).1]

theorem inbox_of_done {fuel : ℕ} {s s' : Sys N} {p : Fin N → Prog α} {out : Fin N → α}
    (hp : ∀ i, (p i).OffChannel) (h : run W fuel s p = .done out s') : s'.inbox = s.inbox := by
  simpa [h, Outcome.state] using run_inbox_of_offChannel W fuel s p hp

end Frame

/-! ## The kernels that stay off the channels -/

theorem offChannel_enforce (c : Bool) (m : String) : (enforce c m).OffChannel := by
  unfold enforce
  split <;> trivial

theorem offChannel_MulOpen (ctx : KernelEvalContext) (x y : NdArrayRef) (mmul : Bool) :
    (MulOpen ctx x y mmul).OffChannel := by
  unfold MulOpen mulShape mulTriple openMasked storeOpen vmapOpen
  repeat' first
    | intro _
    | with_reducible exact offChannel_enforce _ _
    | with_reducible exact Prog.offChannel_liftM _
    | with_reducible apply Prog.OffChannel.bind
    | with_reducible apply Prog.offChannel_ite
    | split
    | refine Prog.offChannel_req rfl fun _ => ?_
    | exact True.intro

theorem offChannel_BeaverCacheKernel (v : Value) (e : Bool) :
    (BeaverCacheKernel.evaluate v e).OffChannel := by
  unfold BeaverCacheKernel.evaluate
  split <;> refine Prog.OffChannel.bind (Prog.offChannel_req rfl fun _ => trivial) fun _ => ?_ <;>
    split <;> first | trivial | exact Prog.offChannel_req rfl fun _ => trivial

/-- Every kernel but `MulVVS` and `TruncAPr2`, on any input, requests nothing of a channel:
the Beaver kernels, the conversions and the other truncations.  Each program is taken apart
one former at a time: a bind, a request and its answers, a branch, a leaf. -/
theorem offChannel_kernels (ctx : KernelEvalContext) :
    (∀ x y, (MulAA.proc ctx x y).OffChannel) ∧ (∀ x y, (MatMulAA.proc ctx x y).OffChannel) ∧
    (∀ x y, (MulA1B.proc ctx x y).OffChannel) ∧ (∀ x, (SquareA.proc ctx x).OffChannel) ∧
    (∀ sh, (RandA.proc ctx sh).OffChannel) ∧ (∀ x, (P2A.proc ctx x).OffChannel) ∧
    (∀ x, (A2P.proc ctx x).OffChannel) ∧ (∀ x r, (A2V.proc ctx x r).OffChannel) ∧
    (∀ x, (V2A.proc ctx x).OffChannel) ∧ (∀ x d, (TruncA.proc ctx x d).OffChannel) ∧
    (∀ x d, (TruncAPr.proc ctx x d).OffChannel) := by
  refine ⟨fun x y => ?_, fun x y => ?_, fun x y => ?_, fun x => ?_, fun sh => ?_, fun x => ?_,
    fun x => ?_, fun x r => ?_, fun x => ?_, fun x d => ?_, fun x d => ?_⟩ <;>
  simp only [MulAA.proc, MatMulAA.proc, MulA1B.proc, SquareA.proc, storeOpen, RandA.proc,
    P2A.proc, A2P.proc, A2V.proc, aShrField, V2A.proc, privOwner, TruncA.proc,
    TruncAPr.proc] <;>
  repeat' first
    | intro _
    | with_reducible exact offChannel_MulOpen _ _ _ _
    | with_reducible exact offChannel_enforce _ _
    | with_reducible exact Prog.offChannel_liftM _
    | with_reducible apply Prog.OffChannel.bind
    | with_reducible apply Prog.offChannel_ite
    | split
    | refine Prog.offChannel_req rfl fun _ => ?_
    | exact True.intro

section Kernels

variable [NeZero N] (W : World N)

/-- Every kernel that asks anything of its context, but `MulVVS` and `TruncAPr2`, leaves every
channel as it was: for any number of parties, on any input, and whether the run finishes,
aborts or stands stuck. -/
theorem kernels_leave_channels (cfg : RuntimeConfig) (fuel : ℕ) (s : Sys N)
    (x y : Fin N → NdArrayRef) (v : Fin N → Value) (e : Bool) (sh : Shape) (r d : ℕ) :
    (run W fuel s fun i => MulAA.proc (cfg.ctx N i) (x i) (y i)).state.inbox = s.inbox ∧
    (run W fuel s fun i => MatMulAA.proc (cfg.ctx N i) (x i) (y i)).state.inbox = s.inbox ∧
    (run W fuel s fun i => MulA1B.proc (cfg.ctx N i) (x i) (y i)).state.inbox = s.inbox ∧
    (run W fuel s fun i => SquareA.proc (cfg.ctx N i) (x i)).state.inbox = s.inbox ∧
    (run W fuel s fun i => BeaverCacheKernel.evaluate (v i) e).state.inbox = s.inbox ∧
    (run W fuel s fun i => RandA.proc (cfg.ctx N i) sh).state.inbox = s.inbox ∧
    (run W fuel s fun i => P2A.proc (cfg.ctx N i) (x i)).state.inbox = s.inbox ∧
    (run W fuel s fun i => A2P.proc (cfg.ctx N i) (x i)).state.inbox = s.inbox ∧
    (run W fuel s fun i => A2V.proc (cfg.ctx N i) (x i) r).state.inbox = s.inbox ∧
    (run W fuel s fun i => V2A.proc (cfg.ctx N i) (x i)).state.inbox = s.inbox ∧
    (run W fuel s fun i => TruncA.proc (cfg.ctx N i) (x i) d).state.inbox = s.inbox ∧
    (run W fuel s fun i => TruncAPr.proc (cfg.ctx N i) (x i) d).state.inbox = s.inbox := by
  have h := fun i => offChannel_kernels (cfg.ctx N i)
  have frame : ∀ {α : Type} (p : Fin N → Prog α), (∀ i, (p i).OffChannel) →
      (run W fuel s p).state.inbox = s.inbox := fun p => run_inbox_of_offChannel W fuel s p
  exact ⟨frame _ fun i => (h i).1 _ _, frame _ fun i => (h i).2.1 _ _,
    frame _ fun i => (h i).2.2.1 _ _, frame _ fun i => (h i).2.2.2.1 _,
    frame _ fun i => offChannel_BeaverCacheKernel _ _, frame _ fun i => (h i).2.2.2.2.1 _,
    frame _ fun i => (h i).2.2.2.2.2.1 _, frame _ fun i => (h i).2.2.2.2.2.2.1 _,
    frame _ fun i => (h i).2.2.2.2.2.2.2.1 _ _, frame _ fun i => (h i).2.2.2.2.2.2.2.2.1 _,
    frame _ fun i => (h i).2.2.2.2.2.2.2.2.2.1 _ _, frame _ fun i => (h i).2.2.2.2.2.2.2.2.2.2 _ _⟩

theorem kernels_leave_channels_with_caching_on :
    (run (World.replaying 2) 8 cachingOn fun i =>
        MulAA.proc ((⟨false, .FM64⟩ : RuntimeConfig).ctx 2 i) (cachedOperand i)
          (cachedOperand i)).state.inbox =
      cachingOn.inbox ∧
    (run (World.replaying 2) 8 cachingOn fun i =>
        MatMulAA.proc ((⟨false, .FM64⟩ : RuntimeConfig).ctx 2 i) (cachedOperand i)
          (cachedOperand i)).state.inbox =
      cachingOn.inbox ∧
    (run (World.replaying 2) 8 cachingOn fun i =>
        MulA1B.proc ((⟨false, .FM64⟩ : RuntimeConfig).ctx 2 i) (cachedOperand i)
          (cachedOperand i)).state.inbox =
      cachingOn.inbox ∧
    (run (World.replaying 2) 8 cachingOn fun i =>
        SquareA.proc ((⟨false, .FM64⟩ : RuntimeConfig).ctx 2 i) (cachedOperand i)).state.inbox =
      cachingOn.inbox ∧
    (run (World.replaying 2) 8 cachingOn fun i =>
        BeaverCacheKernel.evaluate (cachedValue i) true).state.inbox =
      cachingOn.inbox ∧
    (run (World.replaying 2) 8 cachingOn fun i =>
        RandA.proc ((⟨false, .FM64⟩ : RuntimeConfig).ctx 2 i) [1]).state.inbox =
      cachingOn.inbox ∧
    (run (World.replaying 2) 8 cachingOn fun i =>
        P2A.proc ((⟨false, .FM64⟩ : RuntimeConfig).ctx 2 i) (cachedOperand i)).state.inbox =
      cachingOn.inbox ∧
    (run (World.replaying 2) 8 cachingOn fun i =>
        A2P.proc ((⟨false, .FM64⟩ : RuntimeConfig).ctx 2 i) (cachedOperand i)).state.inbox =
      cachingOn.inbox ∧
    (run (World.replaying 2) 8 cachingOn fun i =>
        A2V.proc ((⟨false, .FM64⟩ : RuntimeConfig).ctx 2 i) (cachedOperand i) 0).state.inbox =
      cachingOn.inbox ∧
    (run (World.replaying 2) 8 cachingOn fun i =>
        V2A.proc ((⟨false, .FM64⟩ : RuntimeConfig).ctx 2 i) (cachedOperand i)).state.inbox =
      cachingOn.inbox ∧
    (run (World.replaying 2) 8 cachingOn fun i =>
        TruncA.proc ((⟨false, .FM64⟩ : RuntimeConfig).ctx 2 i) (cachedOperand i) 2).state.inbox =
      cachingOn.inbox ∧
    (run (World.replaying 2) 8 cachingOn fun i =>
        TruncAPr.proc ((⟨false, .FM64⟩ : RuntimeConfig).ctx 2 i) (cachedOperand i) 2).state.inbox =
      cachingOn.inbox :=
  kernels_leave_channels (World.replaying 2) ⟨false, .FM64⟩ 8 cachingOn cachedOperand
    cachedOperand cachedValue true [1] 0 2

end Kernels

/-! ## Sessions -/

section Sessions

variable [NeZero N] (W : World N) {cfg : RuntimeConfig} {mem : ℕ → Fin N → NdArrayRef}

/-- A call that finishes leaves every channel as it was. -/
theorem Call.exec_inbox {c : Call N} {fuel : ℕ} {s s' : Sys N}
    {z : Option (Fin N → NdArrayRef)} (h : c.exec W cfg fuel s = some (z, s')) :
    s'.inbox = s.inbox := by
  cases c <;> obtain ⟨out, hout⟩ := exists_done_of_result h fun _ => rfl
  case mulAA => exact inbox_of_done W (fun i => (offChannel_kernels _).1 _ _) hout
  case matMulAA => exact inbox_of_done W (fun i => (offChannel_kernels _).2.1 _ _) hout
  case mulA1B => exact inbox_of_done W (fun i => (offChannel_kernels _).2.2.1 _ _) hout
  case squareA => exact inbox_of_done W (fun i => (offChannel_kernels _).2.2.2.1 _) hout
  case beaverCache => exact inbox_of_done W (fun i => offChannel_BeaverCacheKernel _ _) hout

theorem Reachable.inbox {s : Sys N} (hs : Reachable W cfg mem s) :
    s.inbox = (Sys.init N).inbox := by
  induction hs with
  | init => rfl
  | step _ _ hexec ih => exact (Call.exec_inbox W hexec).trans ih

/-- No state a session reaches holds a message in flight on any channel. -/
theorem session_channels_stay_empty {s : Sys N} (hs : Reachable W cfg mem s) (d src : ℕ) :
    s.inbox d src = [] :=
  congrFun (congrFun (hs.inbox W) d) src

theorem channels_empty_with_caching_on :
    Reachable (World.replaying 2) ⟨false, .FM64⟩ cachedMem cachingOn ∧
      cachingOn.inbox 1 0 = [] :=
  ⟨cachingOn_reachable, session_channels_stay_empty _ cachingOn_reachable 1 0⟩

end Sessions

/-! ## `MulVVS` -/

section Exchange

variable (W : World 2)

/-- `MulVVS` delivers each of its two messages exactly once: from empty channels between the
two parties, on operands each held by one of them, it finishes, whatever the private-multiply
pair, and leaves every channel as it found it, nothing lost and nothing left over. -/
theorem MulVVS_delivers_each_message (cfg : RuntimeConfig) (s : Sys 2) (f : FieldType)
    (sh : Shape) (x y : Fin 2 → NdArrayRef) (xr yr : Fin 2) (hxy : xr ≠ yr)
    (hx : ∀ i, (x i).eltype = Priv2kTy f xr) (hy : ∀ i, (y i).eltype = Priv2kTy f yr)
    (hxs : ∀ i, (x i).shape = sh) (hys : ∀ i, (y i).shape = sh)
    (hempty : s.inbox 0 1 = [] ∧ s.inbox 1 0 = []) (fuel : ℕ) :
    ∃ z s', run W (fuel + 4) s (fun i => MulVVS.proc (cfg.ctx 2 i) (x i) (y i)) = .done z s' ∧
      s'.inbox = s.inbox := by
  obtain ⟨z, s', hrun, -, -, hin, -⟩ :=
    run_MulVVS_phase W cfg s f sh x y xr yr hxy hx hy hxs hys hempty
  have hrun' := hrun (fun _ => Prog.pure) (fuel + 1)
  simp only [Prog.bind_pure] at hrun'
  exact ⟨z, s', by rw [hrun', run_pure], hin⟩

theorem MulVVS_delivers_on_fresh_channels :
    ∃ z s', run (World.replaying 2) (0 + 4) (Sys.init 2)
        (fun i => MulVVS.proc ((⟨false, .FM64⟩ : RuntimeConfig).ctx 2 i)
          (ofFun (Priv2kTy .FM64 0) [1] fun _ => 6) (ofFun (Priv2kTy .FM64 1) [1] fun _ => 7)) =
          .done z s' ∧
      s'.inbox = (Sys.init 2).inbox :=
  MulVVS_delivers_each_message (World.replaying 2) ⟨false, .FM64⟩ (Sys.init 2) .FM64 [1]
    (fun _ => ofFun (Priv2kTy .FM64 0) [1] fun _ => 6)
    (fun _ => ofFun (Priv2kTy .FM64 1) [1] fun _ => 7) 0 1
    (by decide) (fun _ => rfl) (fun _ => rfl) (fun _ => rfl) (fun _ => rfl) ⟨rfl, rfl⟩ 0

/-- `TruncAPr2` delivers the two messages of its private product exactly once: on a two-party
sharing, from empty channels between the parties, for every number of bits that has a narrow
ring, it finishes whatever private-multiply pair the Beaver source draws, and leaves every
channel as it found it. -/
theorem TruncAPr2_delivers_each_message (cfg : RuntimeConfig) (s : Sys 2) (f : FieldType)
    (sh : Shape) (x : Fin 2 → NdArrayRef) (hx : ∀ i, (x i).eltype.field = f)
    (hxs : ∀ i, (x i).shape = sh) (d : ℕ) (hd : d ≤ 128)
    (hempty : s.inbox 0 1 = [] ∧ s.inbox 1 0 = []) (fuel : ℕ) :
    ∃ z s', run W (fuel + 4) s (fun i => TruncAPr2.proc (cfg.ctx 2 i) (x i) d) = .done z s' ∧
      s'.inbox = s.inbox := by
  obtain ⟨ft, hft⟩ := getTruncField_of_le hd
  obtain ⟨mw, s', hrun, -, hin, -⟩ := run_computeMW_phase W cfg s f sh x hx hxs d ft hft hempty
  have hr : ∀ i : Fin 2, (i : ℕ) = 0 ∨ (i : ℕ) = 1 := fun i => by omega
  refine ⟨fun i => ofFun (x i).eltype sh fun idx =>
    truncPr2Share f.width d i ((x i).data idx) ((mw i).data idx), s', ?_, hin⟩
  simp only [TruncAPr2.proc, hft, Prog.pure_bind, Prog.bind_eq, RuntimeConfig.ctx_rank, hr,
    decide_True, enforce_true, Prog.pure_eq, hx, hxs]
  rw [show fuel + 4 = fuel + 1 + 3 from rfl, hrun, run_pure]
  rfl

theorem TruncAPr2_delivers_on_fresh_channels :
    ∃ z s', run (World.replaying 2) (0 + 4) (Sys.init 2)
        (fun i => TruncAPr2.proc ((⟨false, .FM64⟩ : RuntimeConfig).ctx 2 i) (wrappingShares i)
          2) = .done z s' ∧
      s'.inbox = (Sys.init 2).inbox :=
  TruncAPr2_delivers_each_message (World.replaying 2) ⟨false, .FM64⟩ (Sys.init 2) .FM64 [1]
    wrappingShares (fun _ => rfl) (fun _ => rfl) 2 (by decide) ⟨rfl, rfl⟩ 0

/-- `MulVVS` interleaves with any two-party session: at every state the session reaches, on
operands each held by one party, it finishes and leaves every channel empty again. -/
theorem MulVVS_within_sessions {cfg : RuntimeConfig} {mem : ℕ → Fin 2 → NdArrayRef} {s : Sys 2}
    (hs : Reachable W cfg mem s) (f : FieldType) (sh : Shape) (x y : Fin 2 → NdArrayRef)
    (xr yr : Fin 2) (hxy : xr ≠ yr) (hx : ∀ i, (x i).eltype = Priv2kTy f xr)
    (hy : ∀ i, (y i).eltype = Priv2kTy f yr) (hxs : ∀ i, (x i).shape = sh)
    (hys : ∀ i, (y i).shape = sh) (fuel : ℕ) :
    ∃ z s', run W (fuel + 4) s (fun i => MulVVS.proc (cfg.ctx 2 i) (x i) (y i)) = .done z s' ∧
      ∀ d src, s'.inbox d src = [] := by
  have hin := hs.inbox W
  obtain ⟨z, s', hrun, -, -, hin', -⟩ :=
    run_MulVVS_phase W cfg s f sh x y xr yr hxy hx hy hxs hys (by simp [hin, Sys.init])
  have hrun' := hrun (fun _ => Prog.pure) (fuel + 1)
  simp only [Prog.bind_pure] at hrun'
  exact ⟨z, s', by rw [hrun', run_pure], fun d src => by simp [hin', hin, Sys.init]⟩

theorem MulVVS_after_caching_on :
    Reachable (World.replaying 2) ⟨false, .FM64⟩ cachedMem cachingOn ∧
      ∃ z s', run (World.replaying 2) (0 + 4) cachingOn
          (fun i => MulVVS.proc ((⟨false, .FM64⟩ : RuntimeConfig).ctx 2 i)
            (constant (Priv2kTy .FM64 1) [1]) (constant (Priv2kTy .FM64 0) [1])) = .done z s' ∧
        ∀ d src, s'.inbox d src = [] :=
  ⟨cachingOn_reachable, MulVVS_within_sessions (World.replaying 2) cachingOn_reachable .FM64 [1]
    (fun _ => constant (Priv2kTy .FM64 1) [1]) (fun _ => constant (Priv2kTy .FM64 0) [1]) 1 0
    (by decide) (fun _ => rfl) (fun _ => rfl) (fun _ => rfl) (fun _ => rfl) 0⟩

end Exchange

end Semi2k
