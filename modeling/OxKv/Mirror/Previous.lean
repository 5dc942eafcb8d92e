import OxKv.Mirror.Refresh

/-!
The value that `set_bytes` of a cached store reports.

A read falls back to the durable core when the mirror does not hold the key and the scan
is not finished; `CachedOxKvStore::set_bytes` asks the mirror alone.

* `set_reports_previous`: when the reported value is the one a read would have given, on
  the handle and in its transactions.
-/

namespace OxKv.Cached

variable {cx : Ctx} {who : Who} {s : World × Mirrors} {o : cachedEngine.Oracle}

theorem run_rejectIfPoisoned : cachedEngine.run who rejectIfPoisoned o s =
    some (match (s.2.inst who.inst).state.poisoned with
      | some why => .error (.fenced why)
      | none => .ok (), cachedEngine.rest o, s) := by
  rw [rejectIfPoisoned, run_bind, run_state]
  simp only
  cases (s.2.inst who.inst).state.poisoned <;> rfl

/-- The oracle after the three actions of a read on the mirror. -/
abbrev pastMirror (o : cachedEngine.Oracle) : cachedEngine.Oracle :=
  cachedEngine.rest (cachedEngine.rest (cachedEngine.rest o))

/-- What the durable core answers to the read. -/
def coreGet (cx : Ctx) (who : Who) (key : Key) (o : cachedEngine.Oracle) (s : World × Mirrors) :
    Option (Res (Option Bytes)) :=
  (engine.run who (OxKv.getBytes cx key) (pastMirror o) s.1).map Prod.fst

/-- The answer of a read: the mirror's, or the core's if the mirror has none and its
scan is not finished. -/
theorem getBytes_answer {key : Key} {prev : Option Bytes} {x : cachedEngine.Oracle × World × Mirrors}
    (hget : cachedEngine.run who (getBytes cx key) o s = some (.ok prev, x)) :
    match (s.2.inst who.inst).map.get? key with
    | some value => prev = some value
    | none => if (s.2.inst who.inst).state.warmed then prev = none
      else coreGet cx who key o s = some (.ok prev) := by
  rw [getBytes, run_bind, run_rejectIfPoisoned] at hget
  cases hp : (s.2.inst who.inst).state.poisoned with
  | some why =>
    rw [hp] at hget
    cases hget
  | none =>
    rw [hp] at hget
    simp only at hget
    rw [run_bind, run_mapGet] at hget
    cases hm : (s.2.inst who.inst).map.get? key with
    | some value =>
      rw [hm] at hget
      cases hget
      rfl
    | none =>
      rw [hm] at hget
      simp only at hget
      rw [run_bind, run_state] at hget
      simp only at hget ⊢
      split at hget
      · rename_i hw
        cases hget
        rw [if_pos hw]
      · rename_i hw
        rw [if_neg hw, coreGet]
        rw [run_bind, run_core] at hget
        cases hc : engine.run who (OxKv.getBytes cx key) (pastMirror o) s.1 with
        | none =>
          rw [hc] at hget
          cases hget
        | some y =>
          rw [hc] at hget
          obtain ⟨r, o', w⟩ := y
          cases r with
          | error e => cases hget
          | ok value => cases value <;> cases hget <;> rfl

/-- `set_bytes` reports what the mirror held. -/
theorem setBytes_mirror (key : Key) (value : Bytes) :
    Ends who (setBytes cx key value)
      (fun r _ => ∀ old, r = .ok old → old = (s.2.inst who.inst).map.get? key) s := by
  refine .bind (.bind (.act rfl fun c r y hx => ?_))
  cases hx
  simp only
  split
  · exact .fail nofun
  · refine .pure (.bind (.act rfl fun c r y hx => ?_))
    cases hx
    simp only [Mirrors.set_self]
    -- whatever the write does, the answer is the one read before it
    have hsync : ∀ s' : World × Mirrors, Ends who
        (do syncAfterWrite; return (s.2.inst who.inst).map.get? key : CachedIo (Option Bytes))
        (fun r _ => ∀ old, r = .ok old → old = (s.2.inst who.inst).map.get? key) s' := by
      intro s'
      refine .bind (.mono (Q := fun _ _ => True) (fun _ _ _ _ _ => trivial) fun r _ _ => ?_)
      cases r with
      | ok _ => exact .pure fun old h => (Except.ok.inj h).symm
      | error e => exact nofun
    refine .bind (.mono (Q := fun _ _ => True) (fun _ _ _ _ _ => trivial) fun r s' _ => ?_)
    cases r with
    | error e => exact nofun
    | ok _ => exact .bind (.act rfl fun c r y hx => hsync _)

/-- On the handle, `set_bytes` reports the value of a read before it exactly if the
mirror holds the key, or is complete, or the core does not hold the key either; inside a
transaction it always does. -/
theorem set_reports_previous (cx : Ctx) (who : Who) (s : World × Mirrors) (key : Key)
    (value : Bytes) (o₁ o₂ : cachedEngine.Oracle) :
    (∀ old prev x y, cachedEngine.run who (setBytes cx key value) o₁ s = some (.ok old, x) →
      cachedEngine.run who (getBytes cx key) o₂ s = some (.ok prev, y) →
      (old = prev ↔ (s.2.inst who.inst).map.get? key ≠ none ∨ (s.2.inst who.inst).state.warmed = true ∨
        coreGet cx who key o₂ s = some (.ok none))) ∧
    ∀ t old t' x,
      cachedEngine.run who (CachedTx.setBytes cx t key value) o₁ s = some (.ok (old, t'), x) →
      ∃ y, cachedEngine.run who (CachedTx.getBytes cx t key) o₁ s = some (.ok old, y) := by
  constructor
  · rintro old prev ⟨o', s'⟩ y hset hget
    have hold := setBytes_mirror key value o₁ (.ok old) o' s' hset old rfl
    have hprev := getBytes_answer hget
    cases hm : (s.2.inst who.inst).map.get? key with
    | some v =>
      rw [hm] at hold hprev
      simp only at hprev
      simp [hold, hprev]
    | none =>
      rw [hm] at hold hprev
      subst hold
      simp only at hprev
      cases hw : (s.2.inst who.inst).state.warmed with
      | true =>
        rw [hw] at hprev
        simp only [ite_true] at hprev
        simp [hprev]
      | false =>
        rw [hw] at hprev
        simp only [Bool.false_eq_true, ite_false] at hprev
        simp only [ne_eq, not_true_eq_false, Bool.false_eq_true, false_or, hprev,
          Option.some.injEq, Except.ok.injEq]
        exact eq_comm
  · intro t old t' x hset
    obtain ⟨prev, o', s', hget, hput⟩ := run_bind_ok hset
    obtain ⟨tx, o'', s'', -, hret⟩ := run_bind_ok hput
    cases hret
    exact ⟨_, hget⟩

/-- A prefix with one key, opened as a cached store. -/
def openedOnKey (mode : WarmMode) (calls : List CachedCall) : Option (World × Mirrors) :=
  (cachedEngine.run ⟨0, 0⟩ (cachedSession sampleBuilder [.put "a" [1]] mode calls) faultless
    (World.start, Mirrors.start)).map fun x => x.2.2

set_option maxRecDepth 100000 in
theorem set_reports_previous_after_get : ∃ s old x, openedOnKey .lazy [.get "a"] = some s ∧
    cachedEngine.run ⟨0, 0⟩ (setBytes firstCtx "a" [2]) faultless s = some (.ok old, x) ∧
    (cachedEngine.run ⟨0, 0⟩ (getBytes firstCtx "a") faultless s).map Prod.fst = some (.ok old) := by
  have heval : (openedOnKey .lazy [.get "a"]).map (fun s =>
      ((cachedEngine.run ⟨0, 0⟩ (setBytes firstCtx "a" [2]) faultless s).map Prod.fst,
        (cachedEngine.run ⟨0, 0⟩ (getBytes firstCtx "a") faultless s).map Prod.fst)) =
      some (some (.ok (some [1])), some (.ok (some [1]))) := by decide +kernel
  have hmap : (openedOnKey .lazy [.get "a"]).map (fun s => ((s.2.inst 0).map.get? "a").isSome) =
      some true := by decide +kernel
  obtain ⟨s, hs, heval⟩ := Option.map_eq_some_iff.mp heval
  simp only [Prod.mk.injEq] at heval
  obtain ⟨hset, hget⟩ := heval
  rw [hs] at hmap
  have hkey : ((s.2.inst 0).map.get? "a").isSome = true := Option.some.inj hmap
  obtain ⟨⟨_, x⟩, hset, rfl⟩ := Option.map_eq_some_iff.mp hset
  obtain ⟨⟨_, y⟩, hget, hprev⟩ := Option.map_eq_some_iff.mp hget
  cases hprev
  have hsame := ((set_reports_previous firstCtx ⟨0, 0⟩ s "a" [2] faultless faultless).1 _ _ x y hset
    hget).mpr (.inl (Option.isSome_iff_ne_none.mp hkey))
  exact ⟨s, _, x, hs, hset, by rw [hget, hsame]; rfl⟩

set_option maxRecDepth 100000 in
/-- Before the scan has reached a key, `set_bytes` reports it as new. -/
theorem lazy_set_reports_none :
    (openedOnKey .lazy []).map (fun s =>
      ((cachedEngine.run ⟨0, 0⟩ (setBytes firstCtx "a" [2]) faultless s).map Prod.fst,
        (cachedEngine.run ⟨0, 0⟩ (getBytes firstCtx "a") faultless s).map Prod.fst)) =
      some (some (.ok none), some (.ok (some [1]))) := by
  decide +kernel

end OxKv.Cached
