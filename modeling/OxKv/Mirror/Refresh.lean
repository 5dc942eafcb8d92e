import OxKv.Mirror.Ends
import OxKv.Runs.Lives
import OxKv.Spec.Model

/-!
When a refresh ends poisoning.

`refresh` has three exits. The one that finds the manifest unchanged returns before it
looks at the ownership record or at the poison, so a takeover that left the manifest
alone stays unnoticed.

* `refresh_ends_poison`: a refresh of a poisoned handle that succeeds ends the poison
  and adopts the recorded epoch exactly when the manifest is not the known one.
-/

namespace OxKv.Cached

variable {cx : Ctx} {who : Who} {s : World × Mirrors}

/-- A point read fails with `Fenced` exactly if the mirror is poisoned. -/
theorem getBytes_fenced (key : Key) :
    Ends who (getBytes cx key)
      (fun r _ => (∃ why, r = .error (.fenced why)) ↔ (s.2.inst who.inst).state.poisoned ≠ none) s := by
  refine .bind (.bind (.act rfl fun c r y hx => ?_))
  cases hx
  simp only
  cases hp : (s.2.inst who.inst).state.poisoned with
  | some why => exact .fail (by simp)
  | none =>
    refine .pure (.bind (.act rfl fun c r y hx => ?_))
    cases hx
    simp only
    split
    · exact .pure (by simp)
    · refine .bind (.act rfl fun c r y hx => ?_)
      cases hx
      simp only
      split
      · exact .pure (by simp)
      · refine .bind (.core (((getBytes_reads cx key) who _).mono fun r w hr => ?_))
        cases r with
        | error e =>
          simp only [Except.error.injEq, ne_eq, not_true_eq_false, iff_false, not_exists]
          exact fun why => (hr e rfl).ne_fenced why
        | ok value =>
          cases value with
          | none => exact .pure (by simp)
          | some raw => exact .bind (.act rfl fun c r y hx => .pure (by simp))

theorem refresh_exits :
    Ends who (refresh cx) (fun r s' => ∀ n, r = .ok n →
      if (s.2.inst who.inst).state.Knows (s.1.loaded cx) then
        (s'.2.inst who.inst).state = (s.2.inst who.inst).state
      else (s'.2.inst who.inst).state.poisoned = none ∧
        ∀ r, s'.1.st.owner = some r → (s'.2.inst who.inst).state.epoch = r.epoch) s := by
  refine .bind (.act rfl fun c r y hx => ?_)
  cases hx
  refine .bind (.core ((loadManifest_loaded who cx _).mono fun r w ⟨hst, hload⟩ => ?_))
  cases r with
  | error e => exact nofun
  | ok x =>
    obtain ⟨m, t⟩ := x
    obtain rfl := hload m t rfl
    simp only [Mirrors.set_self]
    split
    · exact .pure fun n _ => rfl
    · refine .bind (.core ((readOwnership_owner who _).mono fun r w' ⟨hst', howner⟩ => ?_))
      cases r with
      | error e => exact nofun
      | ok owner =>
        obtain rfl := howner owner rfl
        simp only
        split
        · refine .bind ((peeks_of_scans (warm_scans cx) who _).mono fun r s' ⟨hst'', _⟩ => ?_)
          cases r with
          | error e => exact nofun
          | ok applied =>
            refine .bind (.act rfl fun c r y hx => .pure fun n _ => ?_)
            cases hx
            refine ⟨by simp [CachedState.observeManifest], fun r hr => ?_⟩
            simp only [Mirrors.set_inst_self]
            rw [hst'', hst'] at hr
            rw [hr]
            rfl
        · rename_i hsame
          simp only [ne_eq, not_or, not_not] at hsame
          refine .bind ((peeks_of_scans
            ((eachWal_scans applyRecords_scans _ _).mono (Nat.zero_le 1)) who _).mono
            fun r s' ⟨hst'', hepoch⟩ => ?_)
          cases r with
          | error e => exact nofun
          | ok applied =>
            refine .bind (.act rfl fun c r y hx => .pure fun n _ => ?_)
            cases hx
            refine ⟨by simp [CachedState.observeManifest], fun r hr => ?_⟩
            simp only [Mirrors.set_inst_self, CachedState.observeManifest]
            rw [hst'', hst'] at hr
            rw [hepoch, ← hsame.1, hr]
            rfl

/-- A refresh of a poisoned handle that succeeds ends the poison exactly when the stored
manifest is not the one the mirror knows. -/
theorem refresh_ends_poison {o o' : cachedEngine.Oracle} {s s' : World × Mirrors} {n : Nat}
    (hrun : cachedEngine.run who (refresh cx) o s = some (.ok n, o', s'))
    (hpoison : (s.2.inst who.inst).state.poisoned ≠ none) :
    ((s'.2.inst who.inst).state.poisoned = none ∧
      (∀ r, s'.1.st.owner = some r → (s'.2.inst who.inst).state.epoch = r.epoch) ∧
      ∀ key o₁ r x, cachedEngine.run who (getBytes cx key) o₁ s' = some (r, x) →
        ∀ why, r ≠ .error (.fenced why)) ↔
      ¬ (s.2.inst who.inst).state.Knows (s.1.loaded cx) := by
  have hexit := refresh_exits o (.ok n) o' s' hrun n rfl
  constructor
  · rintro ⟨hclear, -⟩ hknows
    rw [if_pos hknows] at hexit
    rw [hexit] at hclear
    exact hpoison hclear
  · intro hknows
    rw [if_neg hknows] at hexit
    refine ⟨hexit.1, hexit.2, ?_⟩
    rintro key o₁ r ⟨o₂, s₂⟩ hget why rfl
    exact (getBytes_fenced key o₁ _ o₂ s₂ hget).mp ⟨why, rfl⟩ hexit.1

/-! ## A takeover -/

/-- The writer that takes over. -/
def secondBuilder : Builder := { sampleBuilder with session := "second" }

/-- What the first owner knows about its handle. -/
def firstCtx : Ctx := ⟨referenceCrates, 1, "session", fun _ _ => .done (.ok ())⟩

/-- A cached owner issues `before`, another writer takes the prefix over and issues
`calls`, and the first owner goes on with `after`. -/
def takeover (mode : WarmMode) (before : List CachedCall) (calls : List Call)
    (after : List CachedCall) : Option (World × Mirrors) :=
  (cachedEngine.run ⟨0, 0⟩ (cachedSession sampleBuilder [] mode before) faultless
      (World.start, Mirrors.start)).bind fun
    | (some (cx, txs), _, s) =>
      (cachedEngine.run ⟨0, 1⟩ (session secondBuilder calls).lift faultless s).bind fun x =>
        (cachedEngine.run ⟨0, 0⟩ (cachedClient cx after before.length txs) faultless x.2.2).map
          fun y => y.2.2
    | (none, _) => none

set_option maxRecDepth 100000 in
theorem refresh_ends_poison_second_put : ∃ s o' s',
    takeover .eager [.put "a" [1]] [.put "c" [1]] [.put "b" [1]] = some s ∧
      cachedEngine.run ⟨0, 0⟩ (refresh firstCtx) faultless s = some (.ok 1, o', s') ∧
      (s.2.inst 0).state.poisoned ≠ none ∧ (s'.2.inst 0).state.poisoned = none ∧
      ∀ r, s'.1.st.owner = some r → (s'.2.inst 0).state.epoch = r.epoch := by
  have heval : (takeover .eager [.put "a" [1]] [.put "c" [1]] [.put "b" [1]]).map (fun s =>
      ((cachedEngine.run ⟨0, 0⟩ (refresh firstCtx) faultless s).map Prod.fst,
        (s.2.inst 0).state.poisoned.isSome, decide ((s.2.inst 0).state.Knows (s.1.loaded firstCtx)))) =
      some (some (.ok 1), true, false) := by decide +kernel
  obtain ⟨s, hs, heval⟩ := Option.map_eq_some_iff.mp heval
  simp only [Prod.mk.injEq, decide_eq_false_iff_not] at heval
  obtain ⟨hrun, hpoison, hknows⟩ := heval
  obtain ⟨⟨_, o', s'⟩, hrun, rfl⟩ := Option.map_eq_some_iff.mp hrun
  have hsome : (s.2.inst 0).state.poisoned ≠ none := Option.isSome_iff_ne_none.mp hpoison
  obtain ⟨hclear, hepoch, -⟩ := (refresh_ends_poison hrun hsome).mpr hknows
  exact ⟨s, o', s', hs, hrun, hsome, hclear, hepoch⟩

def superseded : StoreError :=
  .fenced "fenced: epoch 1 session session superseded by epoch 2 session second"

set_option maxRecDepth 100000 in
/-- The second writer only takes over. The refresh after the fenced write succeeds, and
the reads after it still fail. -/
theorem refresh_keeps_poison :
    (takeover .eager [.put "a" [1]] [] [.put "b" [1], .get "a", .refresh, .get "a"]).map
      (fun s => (s.2.replies ⟨0, 0⟩, (s.2.inst 0).state.poisoned.isSome, (s.2.inst 0).state.epoch,
        s.1.st.owner.map OwnershipRecord.epoch)) =
      some ([.done (.ok ()), .done (.error superseded), .value (.error superseded), .done (.ok ()),
        .value (.error superseded)], true, 1, some 2) := by
  decide +kernel

end OxKv.Cached
