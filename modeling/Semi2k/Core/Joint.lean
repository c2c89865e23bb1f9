import Semi2k.Core.BeaverCache
import Mathlib.Algebra.BigOperators.Fin

/-!
# Running all parties together

A run of a kernel executes its program on all `N` parties in lock step: at each step every
party stands at a request of the same kind, and the requests are answered together.  An
all-reduce answers every party with the sum of all contributions, a gather delivers every
contribution to the root, a send is queued for its destination and a receive takes the
oldest message queued from its source.  Correlated randomness and Beaver correlations come
from a `World`, numbered by `Sys.draws`; cache requests are answered by each party's own
cache.  A party that throws aborts the run, as a fatal error aborts the computation for all
parties; parties at requests of different kinds are stuck.  Where only some parties throw the
others would go on until they wait on the failed one, which the run does not follow; results
about failures are stated where every party fails at the same step, or party by party.

The world stands for the external sources of the spec (PRSS, private randomness, the Beaver
source); what they promise is stated as hypotheses where it is used.  The Beaver source is
handed every party's replay descriptor, and records the masks it returns into a descriptor
handed to it in the `Init` state.
-/

namespace Semi2k

/-- Modelled from the spec: the correlated-randomness and Beaver sources of a run of `N`
parties.  `n` numbers the requests made of them; each answer gives the elements of every
party's buffers.  The dot source is told every party's dimensions `(m, n, k)`, as
`Beaver::Dot` is. -/
structure World (N : ℕ) where
  prss : ℕ → Fin N → (ℕ → ℕ) × (ℕ → ℕ)
  priv : ℕ → Fin N → ℕ → ℕ
  mul : ℕ → (Fin N → Option ReplayDesc) → (Fin N → Option ReplayDesc) → Fin N →
    (ℕ → ℕ) × (ℕ → ℕ) × (ℕ → ℕ)
  dot : ℕ → (Fin N → ℕ × ℕ × ℕ) → (Fin N → Option ReplayDesc) →
    (Fin N → Option ReplayDesc) → Fin N → (ℕ → ℕ) × (ℕ → ℕ) × (ℕ → ℕ)
  square : ℕ → (Fin N → Option ReplayDesc) → Fin N → (ℕ → ℕ) × (ℕ → ℕ)
  trunc : ℕ → Fin N → (ℕ → ℕ) × (ℕ → ℕ)
  truncPr : ℕ → Fin N → (ℕ → ℕ) × (ℕ → ℕ) × (ℕ → ℕ)
  mulPriv : ℕ → Fin N → (ℕ → ℕ) × (ℕ → ℕ)

/-- The source that answers every request with zeros. -/
def World.zero (N : ℕ) : World N :=
  ⟨fun _ _ => (0, 0), fun _ _ => 0, fun _ _ _ _ => (0, 0, 0), fun _ _ _ _ _ => (0, 0, 0),
    fun _ _ _ => (0, 0), fun _ _ => (0, 0), fun _ _ => (0, 0, 0), fun _ _ => (0, 0)⟩

/-- One communication round as it went over the wire: what each party contributed. -/
inductive Msg (N : ℕ) where
  | allReduce (contrib : Fin N → NdArrayRef)
  | gather (root : ℕ) (contrib : Fin N → List ℕ)
  | send (dst : Fin N → ℕ) (contrib : Fin N → NdArrayRef)

/-- The state of a run between steps, apart from the parties' programs. -/
structure Sys (N : ℕ) where
  cache : Fin N → BeaverCache
  /-- `inbox dst src`: messages sent to `dst` by `src` not yet received, oldest first. -/
  inbox : ℕ → ℕ → List NdArrayRef
  draws : ℕ
  trace : List (Msg N)

/-- A fresh session: empty caches, nothing in flight, nothing drawn. -/
def Sys.init (N : ℕ) : Sys N := ⟨fun _ => BeaverCache.empty, fun _ _ => [], 0, []⟩

/-- How a run ends. -/
inductive Outcome (N : ℕ) (α : Type) where
  | done (out : Fin N → α) (s : Sys N)
  | aborted (msg : String) (s : Sys N)
  | stuck (s : Sys N)

variable {N : ℕ} {α β : Type}

/-- Every party's value, when `f` gives one for every party. -/
def allOf (p : Fin N → α) (f : α → Option β) : Option (Fin N → β) :=
  if h : ∀ i, (f (p i)).isSome then some fun i => (f (p i)).get (h i) else none

theorem allOf_eq_some {p : Fin N → α} {f : α → Option β} {g : Fin N → β}
    (h : ∀ i, f (p i) = some (g i)) : allOf p f = some g := by
  have hs : ∀ i, (f (p i)).isSome := fun i => by simp [h i]
  simp only [allOf, dif_pos hs, Option.some.injEq]
  funext i
  simp [h i]

theorem allOf_eq_none {p : Fin N → α} {f : α → Option β} (i : Fin N) (h : f (p i) = none) :
    allOf p f = none := by
  have hs : ¬ ∀ i, (f (p i)).isSome := fun hall => by simpa [h] using hall i
  simp [allOf, hs]

theorem allOf_some {p : Fin N → α} {f : α → Option β} {g : Fin N → β}
    (h : allOf p f = some g) (i : Fin N) : f (p i) = some (g i) := by
  unfold allOf at h
  split at h
  · cases h
    simp
  · cases h

theorem allOf_none {p : Fin N → α} {f : α → Option β} (h : allOf p f = none) :
    ∃ i, f (p i) = none := by
  unfold allOf at h
  split at h
  · cases h
  · rename_i hs
    push_neg at hs
    obtain ⟨i, hi⟩ := hs
    exact ⟨i, Option.not_isSome_iff_eq_none.mp hi⟩

/-- The answer of an all-reduce to one party: the sum of all contributions, laid out as
the party's own contribution. -/
def reduceAdd (x : Fin N → NdArrayRef) (i : Fin N) : NdArrayRef :=
  NdArrayRef.ofFun (x i).eltype (x i).shape fun idx => ∑ j, (x j).data idx

@[simp] theorem reduceAdd_eltype (x : Fin N → NdArrayRef) (i : Fin N) :
    (reduceAdd x i).eltype = (x i).eltype := rfl

@[simp] theorem reduceAdd_shape (x : Fin N → NdArrayRef) (i : Fin N) :
    (reduceAdd x i).shape = (x i).shape := rfl

@[simp] theorem reduceAdd_data (x : Fin N → NdArrayRef) (i : Fin N) (idx : ℕ) :
    (reduceAdd x i).data idx = (∑ j, (x j).data idx) % 2 ^ (x i).eltype.field.width := rfl

/-- What a buffer handed out by the Beaver source holds, `numel` elements of `field`. -/
def mkBuffer (field : FieldType) (numel : ℕ) (d : ℕ → ℕ) : Buffer :=
  ⟨numel * field.sizeOf, d⟩

/-- The Beaver source records the masks it hands out into a descriptor still `Init`. -/
def record (d : Option ReplayDesc) (m : Buffer) : Option ReplayDesc :=
  d.map fun d => if d.status = .Init then { d with mask := m } else d

namespace Request

/-- Projections selecting the requests of one kind. -/
def allReduce? : Request → Option NdArrayRef
  | .allReduce x => some x
  | _ => none

def gather? (root : ℕ) : Request → Option (List ℕ)
  | .gather x r => if r = root then some x else none
  | _ => none

def sendAsync? : Request → Option (ℕ × NdArrayRef)
  | .sendAsync dst x => some (dst, x)
  | _ => none

def recv? : Request → Option (ℕ × Ty)
  | .recv src ty => some (src, ty)
  | _ => none

def genPrssPair? : Request → Option (FieldType × Shape)
  | .genPrssPair f s => some (f, s)
  | _ => none

def genPriv? : Request → Option (FieldType × Shape)
  | .genPriv f s => some (f, s)
  | _ => none

def beaverMul? : Request → Option (FieldType × ℕ × Option ReplayDesc × Option ReplayDesc)
  | .beaverMul f n dx dy => some (f, n, dx, dy)
  | _ => none

def beaverDot? :
    Request → Option (FieldType × (ℕ × ℕ × ℕ) × Option ReplayDesc × Option ReplayDesc)
  | .beaverDot f m n k dx dy => some (f, (m, n, k), dx, dy)
  | _ => none

def beaverSquare? : Request → Option (FieldType × ℕ × Option ReplayDesc)
  | .beaverSquare f n dx => some (f, n, dx)
  | _ => none

def beaverTrunc? : Request → Option (FieldType × ℕ)
  | .beaverTrunc f n _ => some (f, n)
  | _ => none

def beaverTruncPr? : Request → Option (FieldType × ℕ)
  | .beaverTruncPr f n _ => some (f, n)
  | _ => none

def beaverMulPriv? : Request → Option (FieldType × ℕ)
  | .beaverMulPriv f n => some (f, n)
  | _ => none

/-- The effect of a cache request on the party's cache, and its answer. -/
def onCache : Request → Option (BeaverCache → Response × BeaverCache)
  | .getCache x mmul => some fun c => (.cache (c.getCache x mmul), c)
  | .setCache x mmul d o => some fun c => (.unit, c.setCache x mmul d o)
  | .enableCache x => some fun c => (.unit, c.enableCache x)
  | .disableCache x => some fun c => (.unit, c.disableCache x)
  | _ => none

end Request

/-- Answer one step's collective requests, one per party, all of one kind.  Cache
operations are local and are not answered here (`cacheStep`). -/
def respond [NeZero N] (W : World N) (s : Sys N) (r : Fin N → Request) :
    Option ((Fin N → Response) × Sys N) :=
  match r 0 with
  | .allReduce _ => (allOf r Request.allReduce?).map fun x =>
      (fun i => .arr (reduceAdd x i), { s with trace := s.trace ++ [.allReduce x] })
  | .gather _ root => (allOf r (Request.gather? root)).map fun x =>
      (fun i => .gathered (if (i : ℕ) = root then List.ofFn x else []),
        { s with trace := s.trace ++ [.gather root x] })
  | .sendAsync _ _ => (allOf r Request.sendAsync?).map fun m =>
      (fun _ => .unit,
        { s with
          inbox := fun dst src =>
            s.inbox dst src ++
              if h : src < N then
                (if (m ⟨src, h⟩).1 = dst then [(m ⟨src, h⟩).2] else [])
              else []
          trace := s.trace ++ [.send (fun i => (m i).1) (fun i => (m i).2)] })
  | .recv _ _ => (allOf r Request.recv?).bind fun m =>
      (allOf (fun i : Fin N => (s.inbox i (m i).1).head?) id).map fun x =>
        (fun i => .arr (NdArrayRef.ofFun (m i).2 [(x i).numel] (x i).data),
          { s with inbox := fun dst src =>
              if h : dst < N then
                (if (m ⟨dst, h⟩).1 = src then (s.inbox dst src).tail else s.inbox dst src)
              else s.inbox dst src })
  | .genPrssPair _ _ => (allOf r Request.genPrssPair?).map fun q =>
      (fun i => .arrs (NdArrayRef.ofFun (RingTy (q i).1) (q i).2 (W.prss s.draws i).1)
          (NdArrayRef.ofFun (RingTy (q i).1) (q i).2 (W.prss s.draws i).2),
        { s with draws := s.draws + 1 })
  | .genPriv _ _ => (allOf r Request.genPriv?).map fun q =>
      (fun i => .arr (NdArrayRef.ofFun (RingTy (q i).1) (q i).2 (W.priv s.draws i)),
        { s with draws := s.draws + 1 })
  | .beaverMul _ _ _ _ => (allOf r Request.beaverMul?).map fun q =>
      (fun i =>
        let t := W.mul s.draws (fun j => (q j).2.2.1) (fun j => (q j).2.2.2) i
        let a := mkBuffer (q i).1 (q i).2.1 t.1
        let b := mkBuffer (q i).1 (q i).2.1 t.2.1
        .bufs [a, b, mkBuffer (q i).1 (q i).2.1 t.2.2]
          (record (q i).2.2.1 a) (record (q i).2.2.2 b),
        { s with draws := s.draws + 1 })
  | .beaverDot _ _ _ _ _ _ => (allOf r Request.beaverDot?).map fun q =>
      (fun i =>
        let t := W.dot s.draws (fun j => (q j).2.1) (fun j => (q j).2.2.1)
          (fun j => (q j).2.2.2) i
        let (m, n, k) := (q i).2.1
        let a := mkBuffer (q i).1 (m * k) t.1
        let b := mkBuffer (q i).1 (k * n) t.2.1
        .bufs [a, b, mkBuffer (q i).1 (m * n) t.2.2]
          (record (q i).2.2.1 a) (record (q i).2.2.2 b),
        { s with draws := s.draws + 1 })
  | .beaverSquare _ _ _ => (allOf r Request.beaverSquare?).map fun q =>
      (fun i =>
        let t := W.square s.draws (fun j => (q j).2.2) i
        let a := mkBuffer (q i).1 (q i).2.1 t.1
        .bufs [a, mkBuffer (q i).1 (q i).2.1 t.2] (record (q i).2.2 a) none,
        { s with draws := s.draws + 1 })
  | .beaverTrunc _ _ _ => (allOf r Request.beaverTrunc?).map fun q =>
      (fun i =>
        let t := W.trunc s.draws i
        .bufs [mkBuffer (q i).1 (q i).2 t.1, mkBuffer (q i).1 (q i).2 t.2] none none,
        { s with draws := s.draws + 1 })
  | .beaverTruncPr _ _ _ => (allOf r Request.beaverTruncPr?).map fun q =>
      (fun i =>
        let t := W.truncPr s.draws i
        .bufs [mkBuffer (q i).1 (q i).2 t.1, mkBuffer (q i).1 (q i).2 t.2.1,
          mkBuffer (q i).1 (q i).2 t.2.2] none none,
        { s with draws := s.draws + 1 })
  | .beaverMulPriv _ _ => (allOf r Request.beaverMulPriv?).map fun q =>
      (fun i =>
        let t := W.mulPriv s.draws i
        .bufs [mkBuffer (q i).1 (q i).2 t.1, mkBuffer (q i).1 (q i).2 t.2] none none,
        { s with draws := s.draws + 1 })
  | .getCache _ _ | .setCache _ _ _ _ | .enableCache _ | .disableCache _ => none

namespace Prog

/-- The value of a finished program. -/
def pure? : Prog α → Option α
  | .pure a => some a
  | _ => none

/-- The message of a failed program. -/
def throw? : Prog α → Option String
  | .throw m => some m
  | _ => none

/-- The request a program stands at, and its continuation. -/
def req? : Prog α → Option (Request × (Response → Prog α))
  | .req r k => some (r, k)
  | _ => none

/-- The cache operation a program stands at: what it does to the party's cache, and the
program after it. -/
def cacheOp? : Prog α → Option (BeaverCache → Prog α × BeaverCache)
  | .req r k => r.onCache.map fun g c => (k (g c).1, (g c).2)
  | _ => none

/-- Perform the cache operation the program stands at, if it stands at one. -/
def cacheAdvance (p : Prog α) (c : BeaverCache) : Prog α × BeaverCache :=
  match p.cacheOp? with
  | some g => g c
  | none => (p, c)

/-- A program run on its own through at most `n` cache operations to its value: the value
and the cache it leaves, or `none` if it needs more, fails or communicates. -/
def localRun : ℕ → Prog α → BeaverCache → Option (α × BeaverCache)
  | _, .pure a, c => some (a, c)
  | n + 1, .req r k, c =>
    match r.onCache with
    | some g => localRun n (k (g c).1) (g c).2
    | none => none
  | _, _, _ => none

end Prog

/-- Every party standing at a cache operation performs it on its own cache; the others
wait. -/
def cacheStep (s : Sys N) (p : Fin N → Prog α) : Sys N × (Fin N → Prog α) :=
  ({ s with cache := fun i => ((p i).cacheAdvance (s.cache i)).2 },
    fun i => ((p i).cacheAdvance (s.cache i)).1)

/-- Run all parties' programs for at most `fuel` steps.  Parties at cache operations move
on their own; the others wait for a collective step, which needs every party. -/
def run [NeZero N] (W : World N) : ℕ → Sys N → (Fin N → Prog α) → Outcome N α
  | 0, s, _ => .stuck s
  | fuel + 1, s, p =>
    match allOf p Prog.pure? with
    | some out => .done out s
    | none =>
      match (List.finRange N).findSome? fun i => (p i).throw? with
      | some m => .aborted m s
      | none =>
        if ∃ i, ((p i).cacheOp?).isSome then
          run W fuel (cacheStep s p).1 (cacheStep s p).2
        else
          match allOf p Prog.req? with
          | none => .stuck s
          | some rk =>
            match respond W s fun i => (rk i).1 with
            | none => .stuck s
            | some (resp, s') => run W fuel s' fun i => (rk i).2 (resp i)

end Semi2k

namespace Semi2k

variable {N : ℕ} {α : Type}

/-! ## One step of a run -/

section Step

variable [NeZero N] (W : World N)

theorem run_pure (fuel : ℕ) (s : Sys N) (out : Fin N → α) :
    run W (fuel + 1) s (fun i => .pure (out i)) = .done out s := by
  have h : allOf (fun i => Prog.pure (out i)) Prog.pure? = some out := allOf_eq_some fun _ => rfl
  simp [run, h]

theorem run_of_pure (fuel : ℕ) (s : Sys N) (p : Fin N → Prog α) (out : Fin N → α)
    (h : ∀ i, p i = .pure (out i)) : run W (fuel + 1) s p = .done out s := by
  rw [show p = fun i => .pure (out i) from funext h, run_pure]

namespace Prog

variable {p : Prog α} {c : BeaverCache} {a : α} {c' : BeaverCache}

@[simp] theorem localRun_pure (n : ℕ) (a : α) (c : BeaverCache) :
    (Prog.pure a).localRun n c = some (a, c) := by
  cases n <;> rfl

theorem eq_pure_of_pure? (h : p.pure? = some a) : p = .pure a := by
  cases p <;> simp_all [pure?]

theorem localRun_zero (h : p.localRun 0 c = some (a, c')) : p = .pure a ∧ c' = c := by
  cases p with
  | pure b => simp_all [localRun]
  | throw m => simp [localRun] at h
  | req r k => simp [localRun] at h

theorem throw?_of_localRun {n : ℕ} (h : p.localRun n c = some (a, c')) : p.throw? = none := by
  cases p <;> cases n <;> simp_all [localRun, throw?]

/-- A program that runs locally and has not returned stands at a cache operation. -/
theorem cacheOp?_of_localRun {n : ℕ} (h : p.localRun (n + 1) c = some (a, c'))
    (hp : p.pure? = none) : (p.cacheOp?).isSome := by
  cases p with
  | pure b => simp [pure?] at hp
  | throw m => simp [localRun] at h
  | req r k => cases hr : r.onCache <;> simp_all [localRun, cacheOp?]

theorem localRun_cacheAdvance {n : ℕ} (h : p.localRun (n + 1) c = some (a, c')) :
    (p.cacheAdvance c).1.localRun n (p.cacheAdvance c).2 = some (a, c') := by
  cases p with
  | pure b => simp_all [cacheAdvance, cacheOp?]
  | throw m => simp [localRun] at h
  | req r k => cases hr : r.onCache <;> simp_all [localRun, cacheAdvance, cacheOp?]

theorem localRun_succ {n : ℕ} (h : p.localRun n c = some (a, c')) :
    p.localRun (n + 1) c = some (a, c') := by
  induction n generalizing p c with
  | zero => rw [(localRun_zero h).1, (localRun_zero h).2]; rfl
  | succ n ih =>
    cases p with
    | pure b => simpa using h
    | throw m => simp [localRun] at h
    | req r k =>
      simp only [localRun] at h ⊢
      split at h
      · exact ih h
      · cases h

end Prog

/-- Parties that only make cache operations and then return all finish, each with the
value and cache it reaches on its own, however many operations each makes. -/
theorem run_local (n fuel : ℕ) (s : Sys N) (p : Fin N → Prog α) (out : Fin N → α)
    (c : Fin N → BeaverCache) (h : ∀ i, (p i).localRun n (s.cache i) = some (out i, c i)) :
    run W (n + 1 + fuel) s p = .done out { s with cache := c } := by
  induction n generalizing s p with
  | zero =>
    have hp := fun i => Prog.localRun_zero (h i)
    have hc : c = s.cache := funext fun i => (hp i).2
    rw [Nat.zero_add, Nat.add_comm, run_of_pure W fuel s p out fun i => (hp i).1, hc]
  | succ n ih =>
    rw [show n + 1 + 1 + fuel = (n + 1 + fuel) + 1 by omega, run]
    split
    · rename_i out' hout
      have hp : ∀ i, p i = .pure (out' i) := fun i => Prog.eq_pure_of_pure? (allOf_some hout i)
      simp only [hp, Prog.localRun_pure, Option.some.injEq, Prod.mk.injEq] at h
      have ho : out' = out := funext fun i => (h i).1
      have hc : c = s.cache := funext fun i => (h i).2.symm
      rw [ho, hc]
    · rename_i hnone
      obtain ⟨i, hi⟩ := allOf_none hnone
      rw [List.findSome?_eq_none_iff.mpr fun j _ => Prog.throw?_of_localRun (h j)]
      simp only
      rw [if_pos ⟨i, Prog.cacheOp?_of_localRun (h i) hi⟩]
      exact ih _ _ fun j => Prog.localRun_cacheAdvance (h j)

theorem run_throw (fuel : ℕ) (s : Sys N) (m : String) :
    run W (fuel + 1) s (fun _ => (.throw m : Prog α)) = .aborted m s := by
  have h : allOf (fun _ : Fin N => (Prog.throw m : Prog α)) Prog.pure? = none :=
    allOf_eq_none 0 rfl
  have h0 : List.finRange N ≠ [] := by
    simpa [List.finRange_eq_nil] using (NeZero.ne N)
  obtain ⟨i, l, hl⟩ := List.exists_cons_of_ne_nil h0
  simp [run, h, hl, Prog.throw?]

section Requests

variable (fuel : ℕ) (s : Sys N) (r : Fin N → Request) (k : Fin N → Response → Prog α)

theorem run_req_eq :
    run W (fuel + 1) s (fun i => .req (r i) (k i)) =
      if ∃ i, ((Prog.req (r i) (k i)).cacheOp?).isSome then
        run W fuel (cacheStep s fun i => .req (r i) (k i)).1
          (cacheStep s fun i => .req (r i) (k i)).2
      else
        match respond W s r with
        | none => .stuck s
        | some (resp, s') => run W fuel s' fun i => k i (resp i) := by
  have hpure : allOf (fun i => Prog.req (r i) (k i)) Prog.pure? = none := allOf_eq_none 0 rfl
  have hthrow : (List.finRange N).findSome? (fun i => (Prog.req (r i) (k i)).throw?) = none :=
    List.findSome?_eq_none_iff.mpr fun _ _ => rfl
  have hreq : allOf (fun i => Prog.req (r i) (k i)) Prog.req? = some fun i => (r i, k i) :=
    allOf_eq_some fun _ => rfl
  simp only [run, hpure, hthrow, hreq]

/-- A collective step: every party makes a request of one kind, answered together. -/
theorem run_req (s' : Sys N) (resp : Fin N → Response) (h : respond W s r = some (resp, s'))
    (hc : ∀ i, (r i).onCache = none) :
    run W (fuel + 1) s (fun i => .req (r i) (k i)) = run W fuel s' fun i => k i (resp i) := by
  rw [run_req_eq, if_neg (by simp [Prog.cacheOp?, hc]), h]

/-- A local step: every party performs a cache operation on its own cache. -/
theorem run_cache (g : Fin N → BeaverCache → Response × BeaverCache)
    (h : ∀ i, (r i).onCache = some (g i)) :
    run W (fuel + 1) s (fun i => .req (r i) (k i)) =
      run W fuel { s with cache := fun i => (g i (s.cache i)).2 }
        fun i => k i (g i (s.cache i)).1 := by
  rw [run_req_eq, if_pos ⟨0, by simp [Prog.cacheOp?, h]⟩]
  simp [cacheStep, Prog.cacheAdvance, Prog.cacheOp?, h]

end Requests

theorem respond_allReduce (s : Sys N) (x : Fin N → NdArrayRef) :
    respond W s (fun i => .allReduce (x i)) =
      some (fun i => .arr (reduceAdd x i), { s with trace := s.trace ++ [.allReduce x] }) := by
  have h : allOf (fun i => Request.allReduce (x i)) Request.allReduce? = some x :=
    allOf_eq_some fun _ => rfl
  simp [respond, h]

theorem respond_gather (s : Sys N) (x : Fin N → List ℕ) (root : ℕ) :
    respond W s (fun i => .gather (x i) root) =
      some (fun i => .gathered (if (i : ℕ) = root then List.ofFn x else []),
        { s with trace := s.trace ++ [.gather root x] }) := by
  have h : allOf (fun i => Request.gather (x i) root) (Request.gather? root) = some x :=
    allOf_eq_some fun _ => by simp [Request.gather?]
  simp [respond, h]

theorem respond_genPrssPair (s : Sys N) (field : FieldType) (shape : Shape) :
    respond W s (fun _ => .genPrssPair field shape) =
      some (fun i => .arrs (NdArrayRef.ofFun (RingTy field) shape (W.prss s.draws i).1)
          (NdArrayRef.ofFun (RingTy field) shape (W.prss s.draws i).2),
        { s with draws := s.draws + 1 }) := by
  have h : allOf (fun _ : Fin N => Request.genPrssPair field shape) Request.genPrssPair? =
      some fun _ => (field, shape) := allOf_eq_some fun _ => rfl
  simp [respond, h]

theorem respond_genPriv (s : Sys N) (field : FieldType) (shape : Shape) :
    respond W s (fun _ => .genPriv field shape) =
      some (fun i => .arr (NdArrayRef.ofFun (RingTy field) shape (W.priv s.draws i)),
        { s with draws := s.draws + 1 }) := by
  have h : allOf (fun _ : Fin N => Request.genPriv field shape) Request.genPriv? =
      some fun _ => (field, shape) := allOf_eq_some fun _ => rfl
  simp [respond, h]

theorem respond_beaverMul (s : Sys N) (field : Fin N → FieldType) (numel : Fin N → ℕ)
    (dx dy : Fin N → Option ReplayDesc) :
    respond W s (fun i => .beaverMul (field i) (numel i) (dx i) (dy i)) =
      some (fun i =>
        .bufs [mkBuffer (field i) (numel i) (W.mul s.draws dx dy i).1,
            mkBuffer (field i) (numel i) (W.mul s.draws dx dy i).2.1,
            mkBuffer (field i) (numel i) (W.mul s.draws dx dy i).2.2]
          (record (dx i) (mkBuffer (field i) (numel i) (W.mul s.draws dx dy i).1))
          (record (dy i) (mkBuffer (field i) (numel i) (W.mul s.draws dx dy i).2.1)),
        { s with draws := s.draws + 1 }) := by
  have h : allOf (fun i => Request.beaverMul (field i) (numel i) (dx i) (dy i))
      Request.beaverMul? = some fun i => (field i, numel i, dx i, dy i) :=
    allOf_eq_some fun _ => rfl
  simp [respond, h]

theorem respond_beaverDot (s : Sys N) (field : Fin N → FieldType) (m n k : Fin N → ℕ)
    (dx dy : Fin N → Option ReplayDesc) :
    respond W s (fun i => .beaverDot (field i) (m i) (n i) (k i) (dx i) (dy i)) =
      some (fun i =>
        let t := W.dot s.draws (fun j => (m j, n j, k j)) dx dy i
        .bufs [mkBuffer (field i) (m i * k i) t.1, mkBuffer (field i) (k i * n i) t.2.1,
            mkBuffer (field i) (m i * n i) t.2.2]
          (record (dx i) (mkBuffer (field i) (m i * k i) t.1))
          (record (dy i) (mkBuffer (field i) (k i * n i) t.2.1)),
        { s with draws := s.draws + 1 }) := by
  have h : allOf (fun i => Request.beaverDot (field i) (m i) (n i) (k i) (dx i) (dy i))
      Request.beaverDot? = some fun i => (field i, (m i, n i, k i), dx i, dy i) :=
    allOf_eq_some fun _ => rfl
  simp [respond, h]

theorem respond_beaverSquare (s : Sys N) (field : Fin N → FieldType) (numel : Fin N → ℕ)
    (dx : Fin N → Option ReplayDesc) :
    respond W s (fun i => .beaverSquare (field i) (numel i) (dx i)) =
      some (fun i =>
        .bufs [mkBuffer (field i) (numel i) (W.square s.draws dx i).1,
            mkBuffer (field i) (numel i) (W.square s.draws dx i).2]
          (record (dx i) (mkBuffer (field i) (numel i) (W.square s.draws dx i).1)) none,
        { s with draws := s.draws + 1 }) := by
  have h : allOf (fun i => Request.beaverSquare (field i) (numel i) (dx i))
      Request.beaverSquare? = some fun i => (field i, numel i, dx i) :=
    allOf_eq_some fun _ => rfl
  simp [respond, h]

theorem respond_beaverTrunc (s : Sys N) (field : Fin N → FieldType) (numel bits : Fin N → ℕ) :
    respond W s (fun i => .beaverTrunc (field i) (numel i) (bits i)) =
      some (fun i => .bufs [mkBuffer (field i) (numel i) (W.trunc s.draws i).1,
          mkBuffer (field i) (numel i) (W.trunc s.draws i).2] none none,
        { s with draws := s.draws + 1 }) := by
  have h : allOf (fun i => Request.beaverTrunc (field i) (numel i) (bits i))
      Request.beaverTrunc? = some fun i => (field i, numel i) := allOf_eq_some fun _ => rfl
  simp [respond, h]

theorem respond_beaverTruncPr (s : Sys N) (field : Fin N → FieldType) (numel bits : Fin N → ℕ) :
    respond W s (fun i => .beaverTruncPr (field i) (numel i) (bits i)) =
      some (fun i => .bufs [mkBuffer (field i) (numel i) (W.truncPr s.draws i).1,
          mkBuffer (field i) (numel i) (W.truncPr s.draws i).2.1,
          mkBuffer (field i) (numel i) (W.truncPr s.draws i).2.2] none none,
        { s with draws := s.draws + 1 }) := by
  have h : allOf (fun i => Request.beaverTruncPr (field i) (numel i) (bits i))
      Request.beaverTruncPr? = some fun i => (field i, numel i) := allOf_eq_some fun _ => rfl
  simp [respond, h]

theorem respond_beaverMulPriv (s : Sys N) (field : Fin N → FieldType) (numel : Fin N → ℕ) :
    respond W s (fun i => .beaverMulPriv (field i) (numel i)) =
      some (fun i => .bufs [mkBuffer (field i) (numel i) (W.mulPriv s.draws i).1,
          mkBuffer (field i) (numel i) (W.mulPriv s.draws i).2] none none,
        { s with draws := s.draws + 1 }) := by
  have h : allOf (fun i => Request.beaverMulPriv (field i) (numel i))
      Request.beaverMulPriv? = some fun i => (field i, numel i) := allOf_eq_some fun _ => rfl
  simp [respond, h]

/-- An all-reduce as one phase of a longer program. -/
theorem run_allReduce (fuel : ℕ) (s : Sys N) (u : Fin N → NdArrayRef)
    (k : Fin N → NdArrayRef → Prog α) :
    run W (fuel + 1) s (fun i => (allReduce (u i)).bind (k i)) =
      run W fuel { s with trace := s.trace ++ [.allReduce u] } fun i => k i (reduceAdd u i) := by
  simp only [allReduce, Prog.req_bind]
  rw [run_req W fuel s _ _ _ _ (respond_allReduce W s u) fun _ => rfl]
  rfl

/-- A send as one phase: each party's message is queued for its destination. -/
theorem run_sendAsync (fuel : ℕ) (s : Sys N) (dst : Fin N → ℕ) (u : Fin N → NdArrayRef)
    (k : Fin N → Prog α) :
    run W (fuel + 1) s (fun i => (sendAsync (dst i) (u i)).bind fun _ => k i) =
      run W fuel { s with
        inbox := fun d src => s.inbox d src ++
          if h : src < N then (if dst ⟨src, h⟩ = d then [u ⟨src, h⟩] else []) else []
        trace := s.trace ++ [.send dst u] } k := by
  have h : allOf (fun i => Request.sendAsync (dst i) (u i)) Request.sendAsync? =
      some fun i => (dst i, u i) := allOf_eq_some fun _ => rfl
  simp only [sendAsync, Prog.req_bind]
  rw [run_req W fuel s (fun i => .sendAsync (dst i) (u i)) _ _ _
    (by simp only [respond, h]; rfl) fun _ => rfl]
  rfl

/-- A receive as one phase: each party takes the oldest message queued from its source. -/
theorem run_recv (fuel : ℕ) (s : Sys N) (src : Fin N → ℕ) (ty : Fin N → Ty)
    (v : Fin N → NdArrayRef) (hv : ∀ i : Fin N, (s.inbox i (src i)).head? = some (v i))
    (k : Fin N → NdArrayRef → Prog α) :
    run W (fuel + 1) s (fun i => (recv (src i) (ty i)).bind (k i)) =
      run W fuel { s with
        inbox := fun d src' => if h : d < N then
          (if src ⟨d, h⟩ = src' then (s.inbox d src').tail else s.inbox d src')
          else s.inbox d src' }
        fun i => k i (NdArrayRef.ofFun (ty i) [(v i).numel] (v i).data) := by
  have hm : allOf (fun i => Request.recv (src i) (ty i)) Request.recv? =
      some fun i => (src i, ty i) := allOf_eq_some fun _ => rfl
  have hx : allOf (fun i : Fin N => (s.inbox i (src i)).head?) id = some v := allOf_eq_some hv
  simp only [recv, Prog.req_bind]
  exact run_req W fuel s (fun i => .recv (src i) (ty i)) _ _ _
    (by simp only [respond, hm, Option.some_bind, hx, Option.map_some']; rfl) fun _ => rfl

end Step

/-! ## What a run puts on the wire -/

/-- The messages a run put on the wire, however it ended. -/
def Outcome.trace : Outcome N α → List (Msg N)
  | .done _ s => s.trace
  | .aborted _ s => s.trace
  | .stuck s => s.trace

/-- The requests that put a message on the wire. -/
def Request.sends : Request → Bool
  | .allReduce _ | .gather _ _ | .sendAsync _ _ => true
  | _ => false

namespace Prog

variable {β : Type}

/-- A program that puts nothing on the wire: what is left of a kernel after its last
message (receives, draws and cache operations apart). -/
def Silent : Prog α → Prop
  | .pure _ => True
  | .throw _ => True
  | .req r k => r.sends = false ∧ ∀ x, Silent (k x)

@[simp] theorem silent_pure (a : α) : (Prog.pure a).Silent := trivial

@[simp] theorem silent_throw (m : String) : (Prog.throw m : Prog α).Silent := trivial

@[simp] theorem silent_ofExcept (e : Except String α) : (ofExcept e).Silent := by
  cases e <;> trivial

/-- After a local ring operation the program is silent when what follows its result is. -/
@[simp] theorem silent_ofExcept_bind (e : Except String α) (f : α → Prog β) :
    ((ofExcept e).bind f).Silent ↔ ∀ a, e = .ok a → (f a).Silent := by
  cases e <;> simp [ofExcept]

theorem Silent.bind {p : Prog α} {f : α → Prog β} (hp : p.Silent) (hf : ∀ a, (f a).Silent) :
    (p.bind f).Silent := by
  induction p with
  | pure a => exact hf a
  | throw m => trivial
  | req r k ih => exact ⟨hp.1, fun x => ih x (hp.2 x)⟩

theorem silent_recv (src : ℕ) (ty : Ty) : (recv src ty).Silent :=
  ⟨rfl, fun r => by cases r <;> trivial⟩

theorem silent_ite {c : Prop} [Decidable c] {p q : Prog α} (hp : p.Silent) (hq : q.Silent) :
    (if c then p else q).Silent := by
  split_ifs <;> assumption

@[simp] theorem silent_ite_iff {c : Prop} [Decidable c] {p q : Prog α} :
    (if c then p else q).Silent ↔ (c → p.Silent) ∧ (¬c → q.Silent) := by
  split_ifs <;> simp_all

theorem Silent.cacheAdvance {p : Prog α} (hp : p.Silent) (c : BeaverCache) :
    (p.cacheAdvance c).1.Silent := by
  cases p with
  | pure a => exact hp
  | throw m => exact hp
  | req r k =>
    cases h : r.onCache with
    | none => simpa [Prog.cacheAdvance, Prog.cacheOp?, h] using hp
    | some g => simpa [Prog.cacheAdvance, Prog.cacheOp?, h] using hp.2 _

end Prog

variable [NeZero N] (W : World N)

/-- Answering requests that send nothing leaves the trace as it was. -/
theorem respond_trace {s s' : Sys N} {r : Fin N → Request} {resp : Fin N → Response}
    (h : respond W s r = some (resp, s')) (hr : (r 0).sends = false) : s'.trace = s.trace := by
  unfold respond at h
  cases h0 : r 0 <;> simp only [h0, Request.sends, Bool.true_eq_false] at hr h <;>
    simp only [Option.map_eq_some', Option.bind_eq_some, Prod.mk.injEq, reduceCtorEq] at h <;>
    first
      | (obtain ⟨_, _, _, rfl⟩ := h; rfl)
      | (obtain ⟨_, _, _, _, _, rfl⟩ := h; rfl)

/-- Parties that put nothing on the wire leave the trace as it was, however the run ends. -/
theorem run_trace_of_silent (fuel : ℕ) (s : Sys N) (p : Fin N → Prog α)
    (hp : ∀ i, (p i).Silent) : (run W fuel s p).trace = s.trace := by
  induction fuel generalizing s p with
  | zero => rfl
  | succ fuel ih =>
    rw [run]
    split
    · rfl
    split
    · rfl
    split_ifs with hc
    · exact ih _ _ fun i => (hp i).cacheAdvance _
    split
    · rfl
    rename_i rk hrk
    have hreq : ∀ i, p i = .req (rk i).1 (rk i).2 := fun i => by
      have := allOf_some hrk i
      revert this
      cases p i <;> simp only [Prog.req?, reduceCtorEq, Option.some.injEq, false_implies]
      intro h; rw [← h]
    split
    · rfl
    rename_i resp s' hresp
    have hsil : ∀ i, (rk i).1.sends = false ∧ ∀ x, ((rk i).2 x).Silent := fun i => by
      simpa [hreq i, Prog.Silent] using hp i
    rw [ih _ _ fun i => (hsil i).2 _, respond_trace W hresp (hsil 0).1]

end Semi2k
