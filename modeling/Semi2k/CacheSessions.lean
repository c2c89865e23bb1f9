import Semi2k.ReplayCache
import Semi2k.MaskedOpenings

/-!
# What the replay cache saves over a session

`ReplayCache` shows that the cache never changes what a kernel computes; this module shows
what it does to a session.  Every call leaves the caches in one of a few forms
(`Call.Leaves`, one inversion lemma for all calls): a Beaver kernel only adds entries, under
identities caching is on for, and the cache kernel only switches identities, dropping the
entries of those it switches off.  Over every session it follows that no party keeps an
entry under an identity whose caching is off; that an entry stays, unchanged, until its
identity is switched off; that a product or square on operands whose caching is on leaves
their openings cached, so that repeating it puts nothing on the wire; that an identity
switched off misses until it is switched on again; and that every Beaver kernel draws once
from the Beaver source, hit or miss.
-/

namespace Semi2k

open NdArrayRef

variable {N : ℕ}

/-! ## One party's cache -/

namespace BeaverCache

/-- A party's cache keeps entries only under identities caching is on for, each with a
descriptor the Beaver source replays. -/
structure Tidy (c : BeaverCache) : Prop where
  enabled : ∀ b k e, c.entries b k = some e → c.enabled b = true
  replay : ∀ b k e, c.entries b k = some e → e.1.status = .Replay

theorem tidy_empty : empty.Tidy :=
  ⟨fun _ _ _ h => (by cases h), fun _ _ _ h => (by cases h)⟩

/-- On a tidy cache an operand misses exactly when its identity holds no entry for the
kind. -/
theorem Tidy.getCache_init_iff {c : BeaverCache} (h : c.Tidy) (x : NdArrayRef) (k : Bool) :
    (c.getCache x k).replay_desc.status = .Init ↔ ∀ b, x.buf = some b → c.entries b k = none := by
  cases hx : x.buf with
  | none => simp [getCache, hx, disabledEntry, ReplayDesc.init]
  | some b =>
    cases he : c.entries b k with
    | none =>
      cases hen : c.enabled b <;> simp [getCache, hx, hen, he, disabledEntry, ReplayDesc.init]
    | some e =>
      obtain ⟨d, o⟩ := e
      have hd : d.status = .Replay := h.replay b k _ he
      simp [getCache, hx, he, h.enabled b k _ he, hd]

/-- `c'` is `c` with entries added: every identity's setting and every entry of `c` kept,
each new entry a replayable one under an identity caching is on for. -/
structure Adds (c c' : BeaverCache) : Prop where
  enabled : c'.enabled = c.enabled
  keeps : ∀ b k e, c.entries b k = some e → c'.entries b k = some e
  added : ∀ b k e, c'.entries b k = some e → c.entries b k = none →
    c.enabled b = true ∧ e.1.status = .Replay

theorem Adds.refl (c : BeaverCache) : c.Adds c :=
  ⟨rfl, fun _ _ _ h => h, fun _ _ _ h h' => by rw [h'] at h; cases h⟩

theorem Adds.tidy {c c' : BeaverCache} (h : c.Adds c') (hc : c.Tidy) : c'.Tidy := by
  refine ⟨fun b k e he => h.enabled ▸ ?_, fun b k e he => ?_⟩
  · cases h0 : c.entries b k with
    | none => exact (h.added b k e he h0).1
    | some e₀ => exact hc.enabled b k e₀ h0
  · cases h0 : c.entries b k with
    | none => exact (h.added b k e he h0).2
    | some e₀ =>
      rw [h.keeps b k e₀ h0, Option.some.injEq] at he
      exact he ▸ hc.replay b k e₀ h0

/-- A store adds to `c₀` when the entry it stores missed `c₀` under the operand's
identity. -/
theorem Adds.store {c₀ c : BeaverCache} (h : c₀.Adds c) (x : NdArrayRef) (mmul : Bool)
    (xc : Cache) (o : NdArrayRef)
    (hw : xc.enabled = true → xc.replay_desc.status = .Init →
      ∀ b, x.buf = some b → c₀.entries b mmul = none) :
    c₀.Adds (c.store x mmul xc o) := by
  unfold BeaverCache.store
  split_ifs with hst
  · refine ⟨by rw [setCache_enabled, h.enabled], fun b k e he => ?_, fun b k e he h0 => ?_⟩
    · rw [setCache_entries, if_neg fun hk => ?_]
      · exact h.keeps b k e he
      · rw [hk.2.2, hw hst.1 hst.2 b hk.1] at he
        cases he
    · rw [setCache_entries] at he
      split_ifs at he with hk
      · cases he
        exact ⟨h.enabled ▸ hk.2.1, rfl⟩
      · exact h.added b k e he h0
  · exact h

/-- A store of the entry looked up in a tidy `c₀`, with the masks of a draw recorded into
it, adds to `c₀`. -/
theorem Tidy.adds_store {c₀ c : BeaverCache} (h₀ : c₀.Tidy) (h : c₀.Adds c) (x : NdArrayRef)
    (mmul : Bool) (xc : Cache) (hst : xc.replay_desc.status = .Init →
      (c₀.getCache x mmul).replay_desc.status = .Init) (m : Buffer) (o : NdArrayRef) :
    c₀.Adds (c.store x mmul (xc.withDesc (record xc.desc? m)) o) :=
  h.store x mmul _ o fun _ hi => (h₀.getCache_init_iff x mmul).1 (hst (by simpa using hi))

/-- `MulOpen`'s two stores only add to a tidy cache: each stores only an entry whose lookup
missed, and the aliasing guard only turns a store off. -/
theorem Tidy.adds_mulStores {c : BeaverCache} (h : c.Tidy) (x y : NdArrayRef) (mmul : Bool)
    (ma mb : Buffer) (X Y : NdArrayRef) : c.Adds (mulStores c x y mmul ma mb X Y) :=
  h.adds_store ((h.adds_store (.refl c) x mmul _ id ma X)) y mmul _
    (by simp [openEntries]) mb Y

@[simp] theorem store_enabled (c : BeaverCache) (x : NdArrayRef) (mmul : Bool) (xc : Cache)
    (o : NdArrayRef) : (c.store x mmul xc o).enabled = c.enabled := by
  unfold BeaverCache.store
  split_ifs <;> simp

/-- A store keeps every entry there is, and writes one when the entry it stores missed,
under an identity caching is on for. -/
theorem store_isSome {c : BeaverCache} {b : ℕ} {k : Bool} (x : NdArrayRef) (xc : Cache)
    (o : NdArrayRef) (h : (c.entries b k).isSome ∨ (xc.enabled = true ∧
      xc.replay_desc.status = .Init ∧ x.buf = some b ∧ c.enabled b = true)) :
    ((c.store x k xc o).entries b k).isSome := by
  unfold BeaverCache.store
  split_ifs with hst
  · rw [setCache_entries]
    split_ifs with hk
    · rfl
    · rcases h with h | ⟨-, -, hb, hen⟩
      · exact h
      · exact absurd ⟨hb, hen, rfl⟩ hk
  · rcases h with h | ⟨he, hi, -⟩
    · exact h
    · exact absurd ⟨he, hi⟩ hst

/-- The store of the entry looked up for an operand whose identity caching is on for leaves
an entry there. -/
theorem store_lookup_isSome {c : BeaverCache} {x : NdArrayRef} {b : ℕ}
    (hx : x.buf = some b) (hen : c.enabled b = true) (mmul : Bool) (m : Buffer) (o : NdArrayRef) :
    ((c.store x mmul ((c.getCache x mmul).withDesc (record (c.getCache x mmul).desc? m)) o).entries
      b mmul).isSome := by
  cases h0 : c.entries b mmul with
  | some e => exact store_isSome x _ o (.inl (by rw [h0]; rfl))
  | none => exact store_isSome x _ o (.inr ⟨by simp [getCache, hx, hen, h0], by
      simp [getCache, hx, hen, h0, ReplayDesc.init], hx, hen⟩)

/-- After `MulOpen`'s stores, an operand whose identity caching is on for has an entry for
the kind: `x`'s store writes one unless there was one, and `y`'s does too unless the
aliasing guard turns it off, which it does only when `x` is `y` and `x`'s store writes it. -/
theorem Tidy.mulStores_isSome {c : BeaverCache} (h : c.Tidy) (x y : NdArrayRef) (mmul : Bool)
    (ma mb : Buffer) (X Y : NdArrayRef) {b : ℕ} (hen : c.enabled b = true) :
    (x.buf = some b ∨ y.buf = some b) →
      ((mulStores c x y mmul ma mb X Y).entries b mmul).isSome := by
  rintro (hxb | hyb)
  · exact store_isSome y _ Y (.inl (store_lookup_isSome hxb hen mmul ma X))
  · cases h0 : c.entries b mmul with
    | some e => rw [(h.adds_mulStores x y mmul ma mb X Y).keeps b mmul e h0]; rfl
    | none =>
      have hmiss : c.getCache y mmul = ⟨true, .init, NdArrayRef.empty⟩ := by
        simp [getCache, hyb, hen, h0]
      refine store_isSome y _ Y ?_
      simp only [drawnEntries, openEntries, aliasGuard]
      split_ifs with hg
      · refine .inl (store_lookup_isSome ?_ hen mmul ma X)
        simp only [beq_def, Bool.and_eq_true, beq_iff_eq] at hg
        exact hg.1.1.2.trans hyb
      · exact .inr ⟨by simp [hmiss], by simp [hmiss, ReplayDesc.init], hyb,
          by rw [store_enabled, hen]⟩

/-- Under a tidy cache an operand whose identity holds an entry for the kind hits. -/
theorem Tidy.not_init_of_isSome {c : BeaverCache} (h : c.Tidy) {x : NdArrayRef} {b : ℕ}
    {k : Bool} (hx : x.buf = some b) (he : (c.entries b k).isSome) :
    ¬(c.getCache x k).replay_desc.status = .Init := fun hi => by
  rw [(h.getCache_init_iff x k).1 hi b hx] at he
  cases he

/-- A tidy cache holds no entry under an identity caching is off for. -/
theorem Tidy.entries_of_off {c : BeaverCache} (h : c.Tidy) {b : ℕ} (hoff : c.enabled b = false)
    (k : Bool) : c.entries b k = none := by
  cases he : c.entries b k with
  | none => rfl
  | some e => rw [h.enabled b k e he] at hoff; cases hoff

/-! ### Switching caching -/

theorem Tidy.enableCache {c : BeaverCache} (h : c.Tidy) (x : NdArrayRef) :
    (c.enableCache x).Tidy := by
  have hkeep : ∀ b k e, (c.enableCache x).entries b k = some e → c.entries b k = some e :=
    fun b k e he => by
      rw [enableCache_entries] at he
      split_ifs at he
      exact he
  exact ⟨fun b k e he => by rw [enableCache_enabled, h.enabled b k e (hkeep b k e he),
    Bool.true_or], fun b k e he => h.replay b k e (hkeep b k e he)⟩

theorem Tidy.disableCache {c : BeaverCache} (h : c.Tidy) (x : NdArrayRef) :
    (c.disableCache x).Tidy := by
  have hkeep : ∀ b k e, (c.disableCache x).entries b k = some e →
      x.buf ≠ some b ∧ c.entries b k = some e := fun b k e he => by
    rw [disableCache_entries] at he
    split_ifs at he with hb
    exact ⟨hb, he⟩
  exact ⟨fun b k e he => by simp [disableCache_enabled, h.enabled b k e (hkeep b k e he).2,
    (hkeep b k e he).1], fun b k e he => h.replay b k e (hkeep b k e he).2⟩

theorem Tidy.toggleValue {c : BeaverCache} (h : c.Tidy) (e : Bool) (v : Value) :
    (c.toggleValue e v).Tidy := by
  have ht : ∀ {c : BeaverCache}, c.Tidy → ∀ x, (c.toggle e x).Tidy := fun h x => by
    cases e
    exacts [h.disableCache x, h.enableCache x]
  unfold BeaverCache.toggleValue
  split
  · exact ht (ht h _) _
  · exact ht h _

theorem toggle_enabled (c : BeaverCache) (e : Bool) (x : NdArrayRef) (b : ℕ) :
    (c.toggle e x).enabled b = if x.buf = some b then e else c.enabled b := by
  by_cases hb : x.buf = some b <;> cases e <;>
    simp [toggle, enableCache_enabled, disableCache_enabled, hb]

/-- Switching caching for one identity leaves every other identity's entries as they
were, and switching it on leaves an identity that was on as it was. -/
theorem toggle_entries (c : BeaverCache) (e : Bool) (x : NdArrayRef) {b : ℕ}
    (h : x.buf ≠ some b ∨ (e = true ∧ c.enabled b = true)) :
    (c.toggle e x).entries b = c.entries b := by
  rcases h with hb | ⟨rfl, hen⟩ <;> [cases e; skip] <;>
    simp_all [toggle, enableCache_entries, disableCache_entries]

end BeaverCache

/-- The identities a value holds: its data's, and its imaginary part's. -/
def Value.Holds (v : Value) (b : ℕ) : Prop :=
  v.data.buf = some b ∨ v.imag.bind NdArrayRef.buf = some b

instance (v : Value) (b : ℕ) : Decidable (v.Holds b) :=
  inferInstanceAs (Decidable (_ ∨ _))

/-- Values of the same identities hold the same ones. -/
theorem Value.Holds.of_bufs {v w : Value} {b : ℕ} (h : v.Holds b)
    (hd : w.data.buf = v.data.buf) (him : w.imag.map NdArrayRef.buf = v.imag.map NdArrayRef.buf) :
    w.Holds b := by
  have hbind : w.imag.bind NdArrayRef.buf = v.imag.bind NdArrayRef.buf := by
    cases hw : w.imag <;> cases hv : v.imag <;> simp_all
  unfold Value.Holds at h ⊢
  rwa [hd, hbind]

namespace BeaverCache

/-- The cache kernel sets caching for the identities the value holds and for no other. -/
theorem toggleValue_enabled (c : BeaverCache) (e : Bool) (v : Value) (b : ℕ) :
    (c.toggleValue e v).enabled b = if v.Holds b then e else c.enabled b := by
  unfold BeaverCache.toggleValue Value.Holds
  split <;> rename_i h <;> by_cases hd : v.data.buf = some b <;> simp_all [toggle_enabled]

/-- The cache kernel leaves the entries of every identity the value does not hold, and,
switching caching on, those of an identity caching was on for. -/
theorem toggleValue_entries (c : BeaverCache) (e : Bool) (v : Value) {b : ℕ}
    (h : ¬v.Holds b ∨ (e = true ∧ c.enabled b = true)) :
    (c.toggleValue e v).entries b = c.entries b := by
  have hd : v.data.buf ≠ some b ∨ (e = true ∧ c.enabled b = true) :=
    h.imp (fun h hd => h (.inl hd)) id
  unfold BeaverCache.toggleValue
  split
  · rename_i im him
    have hi : im.buf ≠ some b ∨ (e = true ∧ (c.toggle e v.data).enabled b = true) := by
      rcases h with h | ⟨rfl, hen⟩
      · exact .inl fun hi => h (.inr (by simp [him, hi]))
      · exact .inr ⟨rfl, by rw [toggle_enabled]; split_ifs <;> simp [hen]⟩
    rw [toggle_entries _ _ _ hi, toggle_entries _ _ _ hd]
  · exact toggle_entries c e v.data hd

theorem toggle_entries_of_buf (c : BeaverCache) (e : Bool) {x : NdArrayRef} {b : ℕ}
    (hx : x.buf = some b) :
    (c.toggle e x).entries b = if e = true ∧ c.enabled b = true then c.entries b
      else fun _ => none := by
  cases e <;> cases hen : c.enabled b <;>
    simp [toggle, enableCache_entries, disableCache_entries, hx, hen]

/-- The cache kernel keeps the entries of an identity the value holds only when it switches
caching on for an identity it was on for, and otherwise leaves the identity empty. -/
theorem toggleValue_entries_of_holds (c : BeaverCache) (e : Bool) (v : Value) {b : ℕ}
    (hb : v.Holds b) :
    (c.toggleValue e v).entries b = if e = true ∧ c.enabled b = true then c.entries b
      else fun _ => none := by
  unfold BeaverCache.toggleValue
  split
  · rename_i im him
    by_cases hi : im.buf = some b
    · rw [toggle_entries_of_buf _ _ hi, toggle_enabled]
      by_cases hd : v.data.buf = some b
      · rw [toggle_entries_of_buf _ _ hd]
        cases e <;> simp [hd]
      · rw [toggle_entries _ _ _ (.inl hd)]
        simp [hd]
    · have hd : v.data.buf = some b := by simpa [Value.Holds, him, hi] using hb
      rw [toggle_entries _ _ _ (.inl hi), toggle_entries_of_buf _ _ hd]
  · rename_i him
    have hd : v.data.buf = some b := by simpa [Value.Holds, him] using hb
    exact toggle_entries_of_buf _ _ hd

theorem ext_enabled_entries {c c' : BeaverCache} (he : ∀ b, c.enabled b = c'.enabled b)
    (hn : ∀ b, c.entries b = c'.entries b) : c = c' := by
  cases c
  cases c'
  congr
  exacts [funext he, funext hn]

/-- Two switches of one value act as the last alone, unless caching is switched back on
after being switched off: switching off forgets what came before, and switching on twice is
switching on once. -/
theorem toggleValue_toggleValue (c : BeaverCache) (v : Value) {e e' : Bool}
    (h : e' = false ∨ e = true) : (c.toggleValue e v).toggleValue e' v = c.toggleValue e' v := by
  refine ext_enabled_entries (fun b => by simp only [toggleValue_enabled]; split_ifs <;> rfl)
    fun b => ?_
  by_cases hb : v.Holds b
  · rcases h with rfl | rfl
    · simp [toggleValue_entries_of_holds _ _ _ hb]
    · cases e' <;> simp [toggleValue_entries_of_holds _ _ _ hb, toggleValue_enabled, hb]
  · rw [toggleValue_entries _ _ _ (.inl hb), toggleValue_entries _ _ _ (.inl hb),
      toggleValue_entries _ _ _ (.inl hb)]

end BeaverCache

/-! ## What a call leaves -/

section Calls

variable [NeZero N]

/-- Party 0 finds no opening of operand `x` for the multiplication kind `mmul` at `s`, so the
kernel opens it; at the states a session reaches every party finds alike. -/
def Misses (s : Sys N) (x : Fin N → NdArrayRef) (mmul : Bool) : Prop :=
  ((s.cache 0).getCache (x 0) mmul).replay_desc.status = .Init

instance (s : Sys N) (x : Fin N → NdArrayRef) (mmul : Bool) : Decidable (Misses s x mmul) :=
  inferInstanceAs (Decidable (_ = _))

/-- Caching is on at `s` for operand `x`: it has an identity, and caching is on for it. -/
def CachingOn (s : Sys N) (x : Fin N → NdArrayRef) : Prop :=
  ∃ b, (x 0).buf = some b ∧ (s.cache 0).enabled b = true

namespace Call

/-- The call is the cache kernel switching caching to `e` for a value that holds the
identity `b` on some party. -/
def Switches (e : Bool) (b : ℕ) : Call N → Prop
  | .beaverCache v e' => e' = e ∧ ∃ i, (v i).Holds b
  | _ => False

/-- Whether a call is a Beaver kernel, which draws from the Beaver source. -/
def isKernel : Call N → Bool
  | .beaverCache _ _ => false
  | _ => true

/-- The identities of the operands a call looks up in the replay cache; `MulA1B` looks up
only arrays it computes, which have none. -/
def Uses (b : ℕ) : Call N → Prop
  | .mulAA x y | .matMulAA x y => (x 0).buf = some b ∨ (y 0).buf = some b
  | .squareA x => (x 0).buf = some b
  | _ => False

/-- The call looks operands up in the replay cache, and caching is on at `s` for each. -/
def Cached (s : Sys N) : Call N → Prop
  | .mulAA x y | .matMulAA x y => CachingOn s x ∧ CachingOn s y
  | .squareA x => CachingOn s x
  | _ => False

/-- Every operand the call looks up hits the replay cache at `s`: `MulA1B`'s never do, and
the cache kernel looks nothing up. -/
def Hits (s : Sys N) : Call N → Prop
  | .mulAA x y => ¬Misses s x false ∧ ¬Misses s y false
  | .matMulAA x y => ¬Misses s x true ∧ ¬Misses s y true
  | .mulA1B _ _ => False
  | .squareA x => ¬Misses s x false
  | .beaverCache _ _ => True

/-- What a call that finishes leaves of the state, whatever the Beaver source drew: one draw
for a Beaver kernel, with `MulOpen`'s stores in every party's cache (`SquareA`'s one store,
and none for `MulA1B`, whose operands of `MulOpen` are fresh arrays); no draw and no message
for the cache kernel, and its switches. -/
def Leaves (s s' : Sys N) : Call N → Prop
  | .mulAA x y => s'.draws = s.draws + 1 ∧ ∃ (ma mb : Fin N → Buffer) (X Y : Fin N → NdArrayRef),
      ∀ i, s'.cache i = mulStores (s.cache i) (x i) (y i) false (ma i) (mb i) (X i) (Y i)
  | .matMulAA x y => s'.draws = s.draws + 1 ∧
      ∃ (ma mb : Fin N → Buffer) (X Y : Fin N → NdArrayRef),
        ∀ i, s'.cache i = mulStores (s.cache i) (x i) (y i) true (ma i) (mb i) (X i) (Y i)
  | .mulA1B _ _ => s'.draws = s.draws + 1 ∧ s'.cache = s.cache
  | .squareA x => s'.draws = s.draws + 1 ∧ ∃ (ma : Fin N → Buffer) (X : Fin N → NdArrayRef),
      ∀ i, s'.cache i = (s.cache i).store (x i) false (((s.cache i).getCache (x i) false).withDesc
        (record ((s.cache i).getCache (x i) false).desc? (ma i))) (X i)
  | .beaverCache v enable_cache => s'.draws = s.draws ∧ s'.trace = s.trace ∧
      ∀ i, s'.cache i = (s.cache i).toggleValue enable_cache (v i)

end Call

end Calls

/-! ## Inversion -/

/-- A call that returns ran to its end. -/
theorem exists_done_of_result {α β : Type} {o : Outcome N α}
    {f : (Fin N → α) × Sys N → β × Sys N} {z : β} {s' : Sys N}
    (h : o.result.map f = some (z, s')) (hf : ∀ r, (f r).2 = r.2) : ∃ out, o = .done out s' := by
  cases o with
  | done out s₁ =>
    simp only [Outcome.result, Option.map_some', Option.some.injEq] at h
    have hs : s' = s₁ := by simpa [h] using hf (out, s₁)
    exact ⟨out, hs ▸ rfl⟩
  | aborted => simp [Outcome.result] at h
  | stuck => simp [Outcome.result] at h

section Inversion

variable [NeZero N] (W : World N) {mem : ℕ → Fin N → NdArrayRef} {s s' : Sys N}

/-- Every party reads a miss for a variable of the session exactly when party 0 does. -/
theorem CacheInv.misses_iff (hc : CacheInv mem s.cache) {x : Fin N → NdArrayRef}
    (hx : Coherent mem x) (mmul : Bool) (i : Fin N) :
    ((s.cache i).getCache (x i) mmul).replay_desc.status = .Init ↔ Misses s x mmul := by
  rw [hc.getCache_status_eq hx mmul i]
  rfl

/-- Inversion of a call from a state that keeps the invariant, on well-formed operands: what
it leaves of the state whenever it finishes. -/
theorem CacheInv.exec_leaves (hW : Replays W) (cfg : RuntimeConfig) (hc : CacheInv mem s.cache)
    {c : Call N} (hwf : c.WellFormed mem) {fuel : ℕ} {z : Option (Fin N → NdArrayRef)}
    (h : c.exec W cfg fuel s = some (z, s')) : c.Leaves s s' := by
  cases c <;> obtain ⟨out, hout⟩ := exists_done_of_result h fun _ => rfl
  case mulAA x y =>
    obtain ⟨hx, hy, hu⟩ := hwf
    obtain ⟨X, Y, z₀, msgs, -, hrun, -⟩ := Semi2k.run_MulAA W cfg s _ _ x y (fun i => (hu i).1)
      (fun i => (hu i).2.1) (fun i => (hu i).2.2.1) (fun i => (hu i).2.2.2) (Misses s x false)
      (Misses s y false) (hc.misses_iff hx false) (hc.misses_iff hy false)
      (hc.hit_isOpening hx false (fun i => (hu i).1) (fun i => congrArg List.prod (hu i).2.2.1)
        fun j hen hst => hW.mul_x _ _ _ j _ (Cache.desc?_of_enabled hen) hst)
      (hc.hit_isOpening hy false (fun i => (hu i).2.1) (fun i => congrArg List.prod (hu i).2.2.2)
        fun j hen hst => hW.mul_y _ _ _ j _ (openDescs_y_of_hit hx hy false j hen hst) hst) 0
    obtain ⟨-, rfl⟩ := run_done_unique W hout hrun
    exact ⟨rfl, _, _, _, _, fun _ => rfl⟩
  case matMulAA x y =>
    obtain ⟨hx, hy, m, n, p, hu⟩ := hwf
    obtain ⟨X, Y, z₀, msgs, -, hrun, -⟩ := Semi2k.run_MatMulAA W cfg s _ m n p x y
      (fun i => (hu i).1) (fun i => (hu i).2.1) (fun i => (hu i).2.2.1) (fun i => (hu i).2.2.2)
      (Misses s x true) (Misses s y true) (hc.misses_iff hx true) (hc.misses_iff hy true)
      (hc.hit_isOpening hx true (fun i => (hu i).1) (fun i => by simp [numel, (hu i).2.2.1])
        fun j hen hst => hW.dot_x _ _ _ _ j _ (Cache.desc?_of_enabled hen) hst)
      (hc.hit_isOpening hy true (fun i => (hu i).2.1) (fun i => by simp [numel, (hu i).2.2.2])
        fun j hen hst => hW.dot_y _ _ _ _ j _ (openDescs_y_of_hit hx hy true j hen hst) hst) 0
    obtain ⟨-, rfl⟩ := run_done_unique W hout hrun
    exact ⟨rfl, _, _, _, _, fun _ => rfl⟩
  case mulA1B x y =>
    obtain ⟨z₀, msgs, hrun, -⟩ := run_MulA1B W cfg s _ _ x y (fun i => (hwf i).1)
      (fun i => (hwf i).2.1) (fun i => (hwf i).2.2.1) (fun i => (hwf i).2.2.2) 0
    obtain ⟨-, rfl⟩ := run_done_unique W hout hrun
    exact ⟨rfl, rfl⟩
  case squareA x =>
    obtain ⟨hx, hu⟩ := hwf
    obtain ⟨X, z₀, msgs, -, hrun, -⟩ := Semi2k.run_SquareA W cfg s _ x (fun i => (hu i).1)
      (Misses s x false) (hc.misses_iff hx false) _
      (hc.hit_isOpening hx false (fun i => (hu i).1) (fun i => congrArg List.prod (hu i).2.2.1)
        fun j hen hst => hW.square _ _ j _ (Cache.desc?_of_enabled hen) hst) 0
    obtain ⟨-, rfl⟩ := run_done_unique W hout hrun
    exact ⟨rfl, _, _, fun _ => rfl⟩
  case beaverCache v enable_cache =>
    obtain ⟨-, rfl⟩ := run_done_unique W hout (run_BeaverCacheKernel W s v enable_cache 0)
    exact ⟨rfl, rfl, fun _ => rfl⟩

/-- A call whose operands all hit the cache puts nothing on the wire: a Beaver kernel sends
the openings of the operands that miss, and the cache kernel sends nothing. -/
theorem CacheInv.exec_silent (hc : CacheInv mem s.cache) (cfg : RuntimeConfig) {c : Call N}
    (hwf : c.WellFormed mem) (hhit : c.Hits s) {fuel : ℕ} {z : Option (Fin N → NdArrayRef)}
    (h : c.exec W cfg fuel s = some (z, s')) : s'.trace = s.trace := by
  cases c <;> obtain ⟨out, hout⟩ := exists_done_of_result h fun _ => rfl
  case mulAA x y =>
    obtain ⟨hx, hy, hu⟩ := hwf
    have htr := run_MulAA_trace W cfg s _ _ x y (fun i => (hu i).1) (fun i => (hu i).2.1)
      (fun i => (hu i).2.2.1) (fun i => (hu i).2.2.2) (Misses s x false) (Misses s y false)
      (hc.misses_iff hx false) (hc.misses_iff hy false) fuel
    rw [run_done_le W hout (Nat.le_add_right fuel 5)] at htr
    simpa [Outcome.trace, openMsgs, hhit.1, hhit.2] using htr
  case matMulAA x y =>
    obtain ⟨hx, hy, m, n, p, hu⟩ := hwf
    have htr := run_MatMulAA_trace W cfg s _ m n p x y (fun i => (hu i).1) (fun i => (hu i).2.1)
      (fun i => (hu i).2.2.1) (fun i => (hu i).2.2.2) (Misses s x true) (Misses s y true)
      (hc.misses_iff hx true) (hc.misses_iff hy true) fuel
    rw [run_done_le W hout (Nat.le_add_right fuel 5)] at htr
    simpa [Outcome.trace, openMsgs, hhit.1, hhit.2] using htr
  case mulA1B => exact hhit.elim
  case squareA x =>
    have htr := run_SquareA_trace W cfg s x (Misses s x false) (hc.misses_iff hwf.1 false) fuel
    rw [run_done_le W hout (Nat.le_add_right fuel 3)] at htr
    simpa [Outcome.trace, show ¬Misses s x false from hhit] using htr
  case beaverCache v enable_cache =>
    obtain ⟨-, rfl⟩ := run_done_unique W hout (run_BeaverCacheKernel W s v enable_cache 0)
    rfl

end Inversion

/-! ## What every call keeps -/

namespace Call

section Leaves

variable {s s' : Sys N} {c : Call N}

theorem Leaves.draws (h : c.Leaves s s') : s'.draws = s.draws + if c.isKernel then 1 else 0 := by
  cases c <;> simp [isKernel, h.1]

/-- A Beaver kernel only adds to each party's tidy cache. -/
theorem Leaves.adds (h : c.Leaves s s') (hk : c.isKernel = true) (i : Fin N)
    (hs : (s.cache i).Tidy) : (s.cache i).Adds (s'.cache i) := by
  cases c with
  | mulAA x y =>
    obtain ⟨-, _, _, _, _, hc⟩ := h
    rw [hc i]
    exact hs.adds_mulStores ..
  | matMulAA x y =>
    obtain ⟨-, _, _, _, _, hc⟩ := h
    rw [hc i]
    exact hs.adds_mulStores ..
  | mulA1B => rw [h.2]; exact .refl _
  | squareA x =>
    obtain ⟨-, _, _, hc⟩ := h
    rw [hc i]
    exact hs.adds_store (.refl _) _ _ _ id _ _
  | beaverCache => cases hk

theorem Leaves.tidy (h : c.Leaves s s') (hs : ∀ i, (s.cache i).Tidy) (i : Fin N) :
    (s'.cache i).Tidy := by
  cases hk : c.isKernel
  · cases c with
    | beaverCache v e => rw [h.2.2 i]; exact (hs i).toggleValue e (v i)
    | _ => simp [isKernel] at hk
  · exact (h.adds hk i (hs i)).tidy (hs i)

/-- A call keeps every entry of an identity it does not switch off. -/
theorem Leaves.keeps (h : c.Leaves s s') {i : Fin N} (hs : (s.cache i).Tidy) {b : ℕ}
    (hb : ¬c.Switches false b) {k : Bool} {e : ReplayDesc × NdArrayRef}
    (he : (s.cache i).entries b k = some e) : (s'.cache i).entries b k = some e := by
  cases hk : c.isKernel
  · cases c with
    | beaverCache v e' =>
      rw [h.2.2 i, BeaverCache.toggleValue_entries]
      · exact he
      · cases e'
        · exact .inl fun hv => hb ⟨rfl, i, hv⟩
        · exact .inr ⟨rfl, hs.enabled b k e he⟩
    | _ => simp [isKernel] at hk
  · exact (h.adds hk i hs).keeps b k e he

/-- An identity caching is off for stays off through a call that does not switch it on. -/
theorem Leaves.enabled_false (h : c.Leaves s s') {i : Fin N} (hs : (s.cache i).Tidy) {b : ℕ}
    (hb : ¬c.Switches true b) (hoff : (s.cache i).enabled b = false) :
    (s'.cache i).enabled b = false := by
  cases hk : c.isKernel
  · cases c with
    | beaverCache v e' =>
      rw [h.2.2 i, BeaverCache.toggleValue_enabled]
      split_ifs with hv
      · cases e'
        · rfl
        · exact absurd ⟨rfl, i, hv⟩ hb
      · exact hoff
    | _ => simp [isKernel] at hk
  · rw [(h.adds hk i hs).enabled]
    exact hoff

/-- A Beaver kernel on operands whose caching is on leaves each of them hitting the cache. -/
theorem Leaves.hits [NeZero N] (h : c.Leaves s s') (hs : ∀ i, (s.cache i).Tidy) (hon : c.Cached s) :
    c.Hits s' := by
  have hs' := h.tidy hs 0
  cases c with
  | mulAA x y =>
    obtain ⟨-, _, _, _, _, hc⟩ := h
    obtain ⟨⟨b₁, hxb, hxen⟩, ⟨b₂, hyb, hyen⟩⟩ := hon
    rw [Hits, Misses, Misses, hc 0]
    rw [hc 0] at hs'
    exact ⟨hs'.not_init_of_isSome hxb ((hs 0).mulStores_isSome _ _ false _ _ _ _ hxen (.inl hxb)),
      hs'.not_init_of_isSome hyb ((hs 0).mulStores_isSome _ _ false _ _ _ _ hyen (.inr hyb))⟩
  | matMulAA x y =>
    obtain ⟨-, _, _, _, _, hc⟩ := h
    obtain ⟨⟨b₁, hxb, hxen⟩, ⟨b₂, hyb, hyen⟩⟩ := hon
    rw [Hits, Misses, Misses, hc 0]
    rw [hc 0] at hs'
    exact ⟨hs'.not_init_of_isSome hxb ((hs 0).mulStores_isSome _ _ true _ _ _ _ hxen (.inl hxb)),
      hs'.not_init_of_isSome hyb ((hs 0).mulStores_isSome _ _ true _ _ _ _ hyen (.inr hyb))⟩
  | mulA1B => exact hon.elim
  | squareA x =>
    obtain ⟨-, _, _, hc⟩ := h
    obtain ⟨b₁, hxb, hxen⟩ := hon
    rw [Hits, Misses, hc 0]
    rw [hc 0] at hs'
    exact hs'.not_init_of_isSome hxb (BeaverCache.store_lookup_isSome hxb hxen ..)
  | beaverCache => trivial

end Leaves

end Call

/-! ## Sessions -/

section Sessions

variable [NeZero N] (W : World N) {cfg : RuntimeConfig} {mem : ℕ → Fin N → NdArrayRef}
  {s s' : Sys N} {cs : List (Call N)}

/-- The calls of a session from `s`: `s'` is reached by the calls `cs`, in order, each on
well-formed operands and run to its end. -/
inductive Session (W : World N) (cfg : RuntimeConfig) (mem : ℕ → Fin N → NdArrayRef) :
    Sys N → List (Call N) → Sys N → Prop
  | nil (s : Sys N) : Session W cfg mem s [] s
  | cons {s s' s'' : Sys N} {c : Call N} {cs : List (Call N)} {fuel : ℕ}
      {z : Option (Fin N → NdArrayRef)} : c.WellFormed mem → c.exec W cfg fuel s = some (z, s') →
      Session W cfg mem s' cs s'' → Session W cfg mem s (c :: cs) s''

theorem Reachable.session (hs : Reachable W cfg mem s) (hcs : Session W cfg mem s cs s') :
    Reachable W cfg mem s' := by
  induction hcs with
  | nil => exact hs
  | cons hwf hexec _ ih => exact ih (.step hs hwf hexec)

theorem Reachable.leaves (hW : Replays W) (hs : Reachable W cfg mem s) {c : Call N}
    (hwf : c.WellFormed mem) {fuel : ℕ} {z : Option (Fin N → NdArrayRef)}
    (h : c.exec W cfg fuel s = some (z, s')) : c.Leaves s s' :=
  (hs.cacheInv W hW).exec_leaves W hW cfg hwf h

theorem Reachable.tidy (hW : Replays W) (hs : Reachable W cfg mem s) (i : Fin N) :
    (s.cache i).Tidy := by
  induction hs generalizing i with
  | init => exact BeaverCache.tidy_empty
  | step h hwf hexec ih => exact (h.leaves W hW hwf hexec).tidy ih i

/-- A property of party `i`'s cache that every call of a session keeps holds at its end. -/
theorem Session.cache_induction (hW : Replays W) (hs : Reachable W cfg mem s)
    (hcs : Session W cfg mem s cs s') (i : Fin N) (P : BeaverCache → Prop)
    (hP : ∀ {s₁ s₂ : Sys N} {c : Call N}, c ∈ cs → (s₁.cache i).Tidy → c.Leaves s₁ s₂ →
      P (s₁.cache i) → P (s₂.cache i)) (h0 : P (s.cache i)) : P (s'.cache i) := by
  induction hcs with
  | nil => exact h0
  | cons hwf hexec _ ih =>
    exact ih (.step hs hwf hexec) (fun hc => hP (List.mem_cons_of_mem _ hc))
      (hP (List.mem_cons_self _ _) (hs.tidy W hW i) (hs.leaves W hW hwf hexec) h0)

/-- Under a tidy cache on party 0, an operand that hits has an entry under its identity. -/
theorem exists_entry_of_not_misses (ht : (s.cache 0).Tidy) {u : Fin N → NdArrayRef} {k : Bool}
    {b : ℕ} (hb : (u 0).buf = some b) (h : ¬Misses s u k) :
    ∃ e, (s.cache 0).entries b k = some e :=
  Option.ne_none_iff_exists'.1 fun he => h ((ht.getCache_init_iff _ k).2 fun _ hb' =>
    (Option.some.inj (hb.symm.trans hb')) ▸ he)

/-- An operand that hits the cache still hits it after calls that do not switch its
identity off. -/
theorem Session.not_misses (hW : Replays W) (hs : Reachable W cfg mem s)
    (hcs : Session W cfg mem s cs s') {u : Fin N → NdArrayRef} {k : Bool}
    (hu : ∀ c ∈ cs, ∀ b, (u 0).buf = some b → ¬c.Switches false b) (h : ¬Misses s u k) :
    ¬Misses s' u k := by
  obtain ⟨b, hb⟩ : ∃ b, (u 0).buf = some b := by
    by_contra hnone
    push_neg at hnone
    exact h ((hs.tidy W hW 0).getCache_init_iff _ k |>.2 fun b hb => absurd hb (hnone b))
  obtain ⟨e, he⟩ := exists_entry_of_not_misses (hs.tidy W hW 0) hb h
  have he' := hcs.cache_induction W hW hs 0 (fun c => c.entries b k = some e)
    (fun hc ht hl h => hl.keeps ht (hu _ hc b hb) h) he
  exact ((hs.session W hcs).tidy W hW 0).not_init_of_isSome hb (by rw [he']; rfl)

/-- A call whose operands hit the cache still hits it after calls that switch none of their
identities off. -/
theorem Session.hits (hW : Replays W) (hs : Reachable W cfg mem s)
    (hcs : Session W cfg mem s cs s') {c : Call N} (hhit : c.Hits s)
    (hkeep : ∀ c' ∈ cs, ∀ b, c.Uses b → ¬c'.Switches false b) : c.Hits s' := by
  have hnm := fun {u : Fin N → NdArrayRef} {k : Bool} hu =>
    hcs.not_misses W hW hs (u := u) (k := k) hu
  cases c with
  | mulAA x y => exact ⟨hnm (fun c' hc' b hb => hkeep c' hc' b (Or.inl hb)) hhit.1,
      hnm (fun c' hc' b hb => hkeep c' hc' b (Or.inr hb)) hhit.2⟩
  | matMulAA x y => exact ⟨hnm (fun c' hc' b hb => hkeep c' hc' b (Or.inl hb)) hhit.1,
      hnm (fun c' hc' b hb => hkeep c' hc' b (Or.inr hb)) hhit.2⟩
  | mulA1B => exact hhit.elim
  | squareA x => exact hnm (fun c' hc' b hb => hkeep c' hc' b hb) hhit
  | beaverCache => trivial

/-! ## The two-party session that caches -/

/-- From the state with caching on, the product of the operand with itself finishes and
leaves the operand hitting the cache. -/
theorem mulAA_from_cachingOn :
    ∃ z s₁, (Call.mulAA cachedOperand cachedOperand).exec (World.replaying 2) ⟨false, .FM64⟩ 8
        cachingOn = some (z, s₁) ∧
      Reachable (World.replaying 2) ⟨false, .FM64⟩ cachedMem s₁ ∧
      (Call.mulAA cachedOperand cachedOperand).Hits s₁ := by
  have hc := cachingOn_reachable.cacheInv _ replaying_replays
  obtain ⟨z, s₁, h⟩ := (hc.exec _ replaying_replays ⟨false, .FM64⟩ mulAA_cachedOperand_wellFormed).1
  exact ⟨z, s₁, h, .step cachingOn_reachable mulAA_cachedOperand_wellFormed h,
    (cachingOn_reachable.leaves _ replaying_replays mulAA_cachedOperand_wellFormed h).hits
      (cachingOn_reachable.tidy _ replaying_replays) ⟨⟨0, rfl, rfl⟩, ⟨0, rfl, rfl⟩⟩⟩

/-! ## Over every session -/

/-- No party keeps an opening under an identity whose caching is off. -/
theorem caching_off_holds_no_entry (hW : Replays W) (hs : Reachable W cfg mem s) (i : Fin N)
    (b : ℕ) (hoff : (s.cache i).enabled b = false) (k : Bool) : (s.cache i).entries b k = none :=
  (hs.tidy W hW i).entries_of_off hoff k

theorem caching_off_for_other_identity :
    (cachingOn.cache 0).enabled 1 = false ∧ (cachingOn.cache 0).entries 1 false = none :=
  ⟨rfl, caching_off_holds_no_entry _ replaying_replays cachingOn_reachable 0 1 rfl false⟩

/-- A cached opening stays, with its descriptor, until a call switches caching off for its
identity: whatever kernels run in between, on whatever operands, and whatever is switched
on. -/
theorem replay_entry_kept (hW : Replays W) (hs : Reachable W cfg mem s)
    (hcs : Session W cfg mem s cs s') {b : ℕ} (hoff : ∀ c ∈ cs, ¬c.Switches false b) (i : Fin N)
    (k : Bool) {e : ReplayDesc × NdArrayRef} (he : (s.cache i).entries b k = some e) :
    (s'.cache i).entries b k = some e :=
  hcs.cache_induction W hW hs i (fun c => c.entries b k = some e)
    (fun hc ht hl h => hl.keeps ht (hoff _ hc) h) he

theorem square_keeps_product_entry :
    ∃ s₁ s₂ e, Reachable (World.replaying 2) ⟨false, .FM64⟩ cachedMem s₁ ∧
      (s₁.cache 0).entries 0 false = some e ∧
      Session (World.replaying 2) ⟨false, .FM64⟩ cachedMem s₁ [.squareA cachedOperand] s₂ ∧
      (s₂.cache 0).entries 0 false = some e := by
  obtain ⟨_, s₁, -, hs₁, hhit⟩ := mulAA_from_cachingOn
  obtain ⟨e, he⟩ := exists_entry_of_not_misses (hs₁.tidy _ replaying_replays 0) rfl hhit.1
  obtain ⟨_, s₂, h₂⟩ := ((hs₁.cacheInv _ replaying_replays).exec _ replaying_replays ⟨false, .FM64⟩
    squareA_cachedOperand_wellFormed).1
  have hcs := Session.cons squareA_cachedOperand_wellFormed h₂ (.nil s₂)
  exact ⟨s₁, s₂, e, hs₁, he, hcs, replay_entry_kept _ replaying_replays hs₁ hcs
    (by simp [Call.Switches]) 0 false he⟩

/-- A Beaver kernel on operands whose caching is on finishes, and leaves every one of them
hitting the cache, `x` and `y` the same array included. -/
theorem kernel_caches_its_operands (hW : Replays W) (hs : Reachable W cfg mem s) {c : Call N}
    (hwf : c.WellFormed mem) (hon : c.Cached s) :
    (∃ z s₁, c.exec W cfg 8 s = some (z, s₁)) ∧
      ∀ fuel z s₁, c.exec W cfg fuel s = some (z, s₁) → c.Hits s₁ :=
  ⟨((hs.cacheInv W hW).exec W hW cfg hwf).1,
    fun _ _ _ h => (hs.leaves W hW hwf h).hits (hs.tidy W hW) hon⟩

theorem mulAA_caches_its_operand :
    (∃ z s₁, (Call.mulAA cachedOperand cachedOperand).exec (World.replaying 2) ⟨false, .FM64⟩ 8
        cachingOn = some (z, s₁)) ∧
      ∀ fuel z s₁, (Call.mulAA cachedOperand cachedOperand).exec (World.replaying 2)
        ⟨false, .FM64⟩ fuel cachingOn = some (z, s₁) →
          (Call.mulAA cachedOperand cachedOperand).Hits s₁ :=
  kernel_caches_its_operands _ replaying_replays cachingOn_reachable
    mulAA_cachedOperand_wellFormed ⟨⟨0, rfl, rfl⟩, ⟨0, rfl, rfl⟩⟩

/-- A call whose operands all hit the cache finishes and puts nothing on the wire, under
either setting of vectorization. -/
theorem cached_call_sends_nothing (hW : Replays W) (hs : Reachable W cfg mem s) {c : Call N}
    (hwf : c.WellFormed mem) (hhit : c.Hits s) :
    (∃ z s₁, c.exec W cfg 8 s = some (z, s₁)) ∧
      ∀ fuel z s₁, c.exec W cfg fuel s = some (z, s₁) → s₁.trace = s.trace :=
  ⟨((hs.cacheInv W hW).exec W hW cfg hwf).1,
    fun _ _ _ h => (hs.cacheInv W hW).exec_silent W cfg hwf hhit h⟩

theorem cached_mulAA_sends_nothing :
    ∃ s₁, Reachable (World.replaying 2) ⟨false, .FM64⟩ cachedMem s₁ ∧
      (Call.mulAA cachedOperand cachedOperand).Hits s₁ ∧
      (∃ z s₂, (Call.mulAA cachedOperand cachedOperand).exec (World.replaying 2) ⟨false, .FM64⟩
        8 s₁ = some (z, s₂)) ∧
      ∀ fuel z s₂, (Call.mulAA cachedOperand cachedOperand).exec (World.replaying 2)
        ⟨false, .FM64⟩ fuel s₁ = some (z, s₂) → s₂.trace = s₁.trace := by
  obtain ⟨_, s₁, -, hs₁, hhit⟩ := mulAA_from_cachingOn
  exact ⟨s₁, hs₁, hhit, cached_call_sends_nothing _ replaying_replays hs₁
    mulAA_cachedOperand_wellFormed hhit⟩

/-- Switching caching off for a value empties and closes its identities on every party, and
they stay so, whatever kernels run, until a call switches caching on for them again: every
operand of those identities misses and is opened afresh. -/
theorem switched_off_stays_uncached (hW : Replays W) (hs : Reachable W cfg mem s)
    {v : Fin N → Value} (hwf : (Call.beaverCache v false).WellFormed mem) {fuel : ℕ}
    {z : Option (Fin N → NdArrayRef)} {s₁ : Sys N}
    (h : (Call.beaverCache v false).exec W cfg fuel s = some (z, s₁))
    (hcs : Session W cfg mem s₁ cs s') {b : ℕ} (hb : (v 0).Holds b)
    (hon : ∀ c ∈ cs, ¬c.Switches true b) (i : Fin N) (k : Bool) :
    (s'.cache i).enabled b = false ∧ (s'.cache i).entries b k = none := by
  have hs₁ : Reachable W cfg mem s₁ := .step hs hwf h
  have hoff₁ : (s₁.cache i).enabled b = false := by
    rw [(hs.leaves W hW hwf h).2.2 i, BeaverCache.toggleValue_enabled,
      if_pos (hb.of_bufs (hwf i).1 (hwf i).2)]
  have hoff := hcs.cache_induction W hW hs₁ i (fun c => c.enabled b = false)
    (fun hc ht hl h => hl.enabled_false ht (hon _ hc) h) hoff₁
  exact ⟨hoff, ((hs₁.session W hcs).tidy W hW i).entries_of_off hoff k⟩

/-- The state once the cache kernel has switched caching off again. -/
def cachingOff : Sys 2 :=
  { cachingOn with cache := fun i => (cachingOn.cache i).toggleValue false (cachedValue i) }

theorem switching_off_empties_operand :
    (cachingOff.cache 0).enabled 0 = false ∧ (cachingOff.cache 0).entries 0 false = none := by
  have h : (Call.beaverCache cachedValue false).exec (World.replaying 2) ⟨false, .FM64⟩ (0 + 3)
      cachingOn = some (none, cachingOff) := by
    simp only [Call.exec]
    rw [run_BeaverCacheKernel]
    rfl
  exact switched_off_stays_uncached _ replaying_replays cachingOn_reachable (fun _ => ⟨rfl, rfl⟩)
    h (.nil cachingOff) (.inl rfl) (fun _ h => nomatch h) 0 false

/-- Every Beaver kernel of a session draws once from the Beaver source, whether its operands
hit the cache or not, and the cache kernel draws nothing. -/
theorem session_draws_once_per_kernel (hW : Replays W) (hs : Reachable W cfg mem s)
    (hcs : Session W cfg mem s cs s') : s'.draws = s.draws + cs.countP Call.isKernel := by
  induction hcs with
  | nil => simp
  | cons hwf hexec _ ih =>
    rw [ih (.step hs hwf hexec), (hs.leaves W hW hwf hexec).draws, List.countP_cons]
    split_ifs <;> omega

theorem cached_mulAA_still_draws :
    ∃ s₁, Session (World.replaying 2) ⟨false, .FM64⟩ cachedMem cachingOn
        [.mulAA cachedOperand cachedOperand, .mulAA cachedOperand cachedOperand] s₁ ∧
      s₁.draws = cachingOn.draws + 2 := by
  obtain ⟨_, s₁, h₁, hs₁, -⟩ := mulAA_from_cachingOn
  obtain ⟨_, s₂, h₂⟩ := ((hs₁.cacheInv _ replaying_replays).exec _ replaying_replays ⟨false, .FM64⟩
    mulAA_cachedOperand_wellFormed).1
  have hcs := Session.cons mulAA_cachedOperand_wellFormed h₁
    (.cons mulAA_cachedOperand_wellFormed h₂ (.nil s₂))
  exact ⟨s₂, hcs, session_draws_once_per_kernel _ replaying_replays cachingOn_reachable hcs⟩

/-- The replay cache pays off: once a Beaver kernel has run on operands whose caching is on,
running it again on them, after any calls that switch none of their identities off, finishes
and puts nothing on the wire. -/
theorem repeated_call_sends_nothing (hW : Replays W) (hs : Reachable W cfg mem s) {c : Call N}
    (hon : c.Cached s) {s₂ : Sys N} (hcs : Session W cfg mem s (c :: cs) s₂)
    (hkeep : ∀ c' ∈ cs, ∀ b, c.Uses b → ¬c'.Switches false b) :
    (∃ z s₃, c.exec W cfg 8 s₂ = some (z, s₃)) ∧
      ∀ fuel z s₃, c.exec W cfg fuel s₂ = some (z, s₃) → s₃.trace = s₂.trace := by
  obtain _ | ⟨hwf, h₁, hcs'⟩ := hcs
  have hs₁ := Reachable.step hs hwf h₁
  have hhit := hcs'.hits W hW hs₁ ((hs.leaves W hW hwf h₁).hits (hs.tidy W hW) hon) hkeep
  have hs₂ := hs₁.session W hcs'
  exact ⟨((hs₂.cacheInv W hW).exec W hW cfg hwf).1,
    fun _ _ _ h => (hs₂.cacheInv W hW).exec_silent W cfg hwf hhit h⟩

theorem mulAA_after_square_sends_nothing :
    ∃ s₂, Session (World.replaying 2) ⟨false, .FM64⟩ cachedMem cachingOn
        [.mulAA cachedOperand cachedOperand, .squareA cachedOperand] s₂ ∧
      (∃ z s₃, (Call.mulAA cachedOperand cachedOperand).exec (World.replaying 2) ⟨false, .FM64⟩
        8 s₂ = some (z, s₃)) ∧
      ∀ fuel z s₃, (Call.mulAA cachedOperand cachedOperand).exec (World.replaying 2)
        ⟨false, .FM64⟩ fuel s₂ = some (z, s₃) → s₃.trace = s₂.trace := by
  obtain ⟨_, s₁, h₁, hs₁, -⟩ := mulAA_from_cachingOn
  obtain ⟨_, s₂, h₂⟩ := ((hs₁.cacheInv _ replaying_replays).exec _ replaying_replays ⟨false, .FM64⟩
    squareA_cachedOperand_wellFormed).1
  have hcs := Session.cons mulAA_cachedOperand_wellFormed h₁
    (.cons squareA_cachedOperand_wellFormed h₂ (.nil s₂))
  exact ⟨s₂, hcs, repeated_call_sends_nothing _ replaying_replays cachingOn_reachable
    (show (Call.mulAA cachedOperand cachedOperand).Cached cachingOn from
      ⟨⟨0, rfl, rfl⟩, ⟨0, rfl, rfl⟩⟩) hcs (by simp [Call.Switches])⟩

/-- Two calls of the cache kernel on one value act as the last alone, unless the second
switches caching back on after the first switched it off. -/
theorem cache_switches_compose (cfg : RuntimeConfig) (s : Sys N) (v : Fin N → Value)
    {e e' : Bool} (h : e' = false ∨ e = true) (fuel : ℕ) :
    ((Call.beaverCache v e).exec W cfg (fuel + 3) s).bind
        (fun r => (Call.beaverCache v e').exec W cfg (fuel + 3) r.2) =
      (Call.beaverCache v e').exec W cfg (fuel + 3) s := by
  simp only [Call.exec, run_BeaverCacheKernel, Outcome.result, Option.map_some', Option.some_bind,
    BeaverCache.toggleValue_toggleValue _ _ h]

theorem cache_switched_on_then_off :
    ((Call.beaverCache cachedValue true).exec (World.replaying 2) ⟨false, .FM64⟩ (0 + 3)
        (Sys.init 2)).bind
        (fun r => (Call.beaverCache cachedValue false).exec (World.replaying 2) ⟨false, .FM64⟩
          (0 + 3) r.2) =
      (Call.beaverCache cachedValue false).exec (World.replaying 2) ⟨false, .FM64⟩ (0 + 3)
        (Sys.init 2) :=
  cache_switches_compose (World.replaying 2) ⟨false, .FM64⟩ (Sys.init 2) cachedValue (Or.inl rfl) 0

end Sessions

end Semi2k
