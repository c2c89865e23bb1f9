import Semi2k.Core.Prog

/-!
# The Beaver replay cache

`BeaverCache` is external to the kernels; it is modelled from the spec: one party's map
from an operand's buffer identity and the multiplication kind (elementwise or dot) to the
replay descriptor and the opened masking stored for it, together with the set of buffers
caching is enabled for.  `GetCache` hands out the stored entry while caching is enabled,
and a fresh descriptor otherwise; `SetCache` stores an entry and marks its descriptor
replayable; enabling keeps what is stored, disabling forgets it.
-/

namespace Semi2k

/-- Modelled from the spec: the Beaver replay cache of one party. -/
structure BeaverCache where
  enabled : ℕ → Bool
  entries : ℕ → Bool → Option (ReplayDesc × NdArrayRef)

namespace BeaverCache

/-- No buffer has caching enabled. -/
def empty : BeaverCache := ⟨fun _ => false, fun _ _ => none⟩

/-- What `GetCache` returns for an operand caching is off for. -/
def disabledEntry : Cache := ⟨false, ReplayDesc.init, NdArrayRef.empty⟩

/-- `GetCache(x, mmul)`. -/
def getCache (c : BeaverCache) (x : NdArrayRef) (mmul : Bool) : Cache :=
  match x.buf with
  | some b =>
    if c.enabled b then
      match c.entries b mmul with
      | some (d, o) => ⟨true, d, o⟩
      | none => ⟨true, ReplayDesc.init, NdArrayRef.empty⟩
    else disabledEntry
  | none => disabledEntry

/-- `SetCache(x, desc, open)`, stored under the multiplication kind `mmul`. -/
def setCache (c : BeaverCache) (x : NdArrayRef) (mmul : Bool) (d : ReplayDesc)
    (o : NdArrayRef) : BeaverCache :=
  match x.buf with
  | some b =>
    if c.enabled b then
      ⟨c.enabled, Function.update c.entries b
        (Function.update (c.entries b) mmul (some (⟨.Replay, d.mask⟩, o)))⟩
    else c
  | none => c

/-- `EnableCache(x)`: a buffer newly enabled starts with no entries. -/
def enableCache (c : BeaverCache) (x : NdArrayRef) : BeaverCache :=
  match x.buf with
  | some b =>
    if c.enabled b then c
    else ⟨Function.update c.enabled b true, Function.update c.entries b fun _ => none⟩
  | none => c

/-- `DisableCache(x)`: the entries of the buffer are dropped. -/
def disableCache (c : BeaverCache) (x : NdArrayRef) : BeaverCache :=
  match x.buf with
  | some b => ⟨Function.update c.enabled b false, Function.update c.entries b fun _ => none⟩
  | none => c

theorem getCache_of_buf_none (c : BeaverCache) {x : NdArrayRef} (hx : x.buf = none)
    (mmul : Bool) : c.getCache x mmul = disabledEntry := by
  simp [getCache, hx]

/-! ### Reading after an update -/

@[simp] theorem setCache_enabled (c : BeaverCache) (x : NdArrayRef) (mmul : Bool)
    (d : ReplayDesc) (o : NdArrayRef) : (c.setCache x mmul d o).enabled = c.enabled := by
  unfold setCache
  split
  · split <;> rfl
  · rfl

/-- `SetCache` writes a replayable entry under the operand's identity when caching is on for
it, and leaves every other entry as it was. -/
theorem setCache_entries (c : BeaverCache) (x : NdArrayRef) (mmul : Bool) (d : ReplayDesc)
    (o : NdArrayRef) (b : ℕ) (k : Bool) :
    (c.setCache x mmul d o).entries b k =
      if x.buf = some b ∧ c.enabled b = true ∧ k = mmul then some (⟨.Replay, d.mask⟩, o)
      else c.entries b k := by
  cases hx : x.buf with
  | none => simp [setCache, hx]
  | some b' =>
    by_cases hb : b' = b
    · subst hb
      by_cases hk : k = mmul <;> cases hen : c.enabled b' <;> simp [setCache, hx, hen, hk]
    · simp [setCache, hx, hb, Function.update_noteq (Ne.symm hb)]
      split_ifs <;> simp [Function.update_noteq (Ne.symm hb)]

theorem enableCache_enabled (c : BeaverCache) (x : NdArrayRef) (b : ℕ) :
    (c.enableCache x).enabled b = (c.enabled b || decide (x.buf = some b)) := by
  cases hx : x.buf with
  | none => simp [enableCache, hx]
  | some b' =>
    by_cases hb : b' = b
    · subst hb
      cases hen : c.enabled b' <;> simp [enableCache, hx, hen]
    · simp only [enableCache, hx]
      split_ifs <;> simp [Function.update_noteq (Ne.symm hb), hb]

/-- `EnableCache` drops the entries of an identity only when it switches caching on for it. -/
theorem enableCache_entries (c : BeaverCache) (x : NdArrayRef) (b : ℕ) :
    (c.enableCache x).entries b =
      if x.buf = some b ∧ c.enabled b = false then fun _ => none else c.entries b := by
  cases hx : x.buf with
  | none => simp [enableCache, hx]
  | some b' =>
    by_cases hb : b' = b
    · subst hb
      cases hen : c.enabled b' <;> simp [enableCache, hx, hen]
    · simp only [enableCache, hx, Option.some.injEq, hb, false_and, if_false]
      split_ifs <;> simp [Function.update_noteq (Ne.symm hb)]

theorem disableCache_enabled (c : BeaverCache) (x : NdArrayRef) (b : ℕ) :
    (c.disableCache x).enabled b = (c.enabled b && !decide (x.buf = some b)) := by
  cases hx : x.buf with
  | none => simp [disableCache, hx]
  | some b' =>
    by_cases hb : b' = b
    · subst hb
      simp [disableCache, hx]
    · simp [disableCache, hx, hb, Function.update_noteq (Ne.symm hb)]

theorem disableCache_entries (c : BeaverCache) (x : NdArrayRef) (b : ℕ) :
    (c.disableCache x).entries b = if x.buf = some b then fun _ => none else c.entries b := by
  cases hx : x.buf with
  | none => simp [disableCache, hx]
  | some b' =>
    by_cases hb : b' = b
    · subst hb
      simp [disableCache, hx]
    · simp [disableCache, hx, hb, Function.update_noteq (Ne.symm hb)]

end BeaverCache

end Semi2k
