import OxKv.Spec.Rely
import OxKv.Engine.IoRules

/-!
The reading of manifest and ownership record under the rules of the engine.

* `loadManifest_safe`: a loaded manifest was the current one at some moment of the
  call;
* `readOwnership_safe`, `checkOwnership_safe`: so was the ownership record.
-/

namespace OxKv

variable {M : Mode} {who : Who} {s s' : State} {cx : Ctx}

/-! ## Reading steps -/

/-- A procedure that only reads is safe under the rules of all procedures. -/
theorem IoSafe.ofReads {α : Type} {p : Io α} {Q : Res α → State → Prop}
    (h : IoSafe (readRules M) who p Q s) : IoSafe (rules M) who p Q s :=
  @Safe.guar_mono Act engine _ (rules M) who Q s p (fun who => Inert who)
    (fun _ _ hi hg => hg.effect hi) h

/-- Weaken the postcondition of a reading procedure, knowing that only reading
steps were taken. -/
theorem IoSafe.calm {α : Type} {p : Io α} {Q Q' : Res α → State → Prop}
    (h : IoSafe (readRules M) who p Q s)
    (hQ : ∀ r s', Inv M.toTrack s'.1 s'.2 → Calm M who s s' → Q r s' → Q' r s') :
    IoSafe (readRules M) who p Q' s :=
  IoSafe.follow h hQ

theorem readStep {β : Type} {a : Act β} {Q : β → State → Prop}
    (hlive : ∀ w c, (exec who c a w).isSome)
    (h : ∀ s1, Others M who s s1 → Inv M.toTrack s1.1 s1.2 → ∀ c r t, (rules M).ok c →
      exec who c a s1.1 = some (r, t) → Inert who s1 (t, s1.2) ∧
        ∀ s2, Others M who (t, s1.2) s2 → Inv M.toTrack s2.1 s2.2 → Q r s2) :
    IoSafe.Step (readRules M) who a Q s := by
  intro s1 hr hi
  have hr : Others M who s s1 := hr
  have hi : Inv M.toTrack s1.1 s1.2 := hi
  refine ⟨fun _ c _ => hlive _ c, fun c r t hc hx _ => ?_⟩
  obtain ⟨hin, hQ⟩ := h s1 hr hi c r t hc hx
  exact ⟨s1.2, (hin.effect hi).inv hi, hin, fun s2 hr2 hi2 => hQ s2 hr2 hi2⟩

def Got (M : Mode) (w : World) (p : ObjectPath) : Res (Obj × Etag) → Prop
  | .ok x => w.st.lookup p = some x
  | .error e => M.faults ∧ e = Fault.backend.error ∨
      w.st.lookup p = none ∧ e = .storage ("not found: " ++ p.name)

theorem saysNotFound_backend : saysNotFound Fault.backend.error.text = false := by decide

theorem isNotFound_backend : isNotFound Fault.backend.error = false := by decide

theorem saysNotFound_missing (p : ObjectPath) :
    saysNotFound (StoreError.storage ("not found: " ++ p.name)).text = true := by
  have hpre : saysNotFound "not found: " = true := by decide
  have happ : saysNotFound ("not found: " ++ p.name) = true := by
    unfold saysNotFound at hpre ⊢
    rw [String.toList_append]
    exact occursIn_append_left _ _ _ hpre
  exact saysNotFound_append _ _ happ

variable {w : World}

theorem faults_of_fault {c : Choice} (hc : (rules M).ok c) (hf : ∃ f, c.fault = some f) : M.faults := by
  obtain ⟨f, hf⟩ := hf
  rcases hc with hc | hc
  · cases hf.symm.trans hc
  · exact hc.1

theorem exec_get {c : Choice} {p : ObjectPath} {t : World} {r : Res (Obj × Etag)}
    (hc : (rules M).ok c) (h : exec who c (.get p) w = some (r, t)) :
    Got M w p r ∧ (t = w ∨ t = w.log who .polled) := by
  obtain ⟨ht, ⟨hf, rfl⟩ | rfl⟩ := exec_get_cases h
  · exact ⟨.inl ⟨faults_of_fault hc hf, rfl⟩, ht⟩
  · refine ⟨?_, ht⟩
    unfold Storage.get Got
    cases hl : w.st.lookup p with
    | none => exact .inr ⟨rfl, rfl⟩
    | some x => rfl

variable {g : Ghost}

theorem inert_polled {t : World} (h : t = w ∨ t = w.log who .polled) : Inert who (w, g) (t, g) := by
  rcases h with rfl | rfl
  · exact .idle
  · exact .look _ (.inl rfl)

/-! ## The current manifest -/

/-- A manifest and its tag are the current ones; the tag `0` stands for a missing
manifest. -/
def Current (w : World) (m : Manifest) (e : Etag) : Prop :=
  w.st.lookup .manifest = some (.manifest m, e) ∨
    w.st.lookup .manifest = none ∧ e = 0 ∧ m.wal = [] ∧ m.sst = []

variable {m : Manifest} {e : Etag}

theorem Current.lists (h : Current w m e) : w.manifest.wal = m.wal ∧ w.manifest.sst = m.sst := by
  unfold World.manifest
  rcases h with h | ⟨h, -, hw, hs⟩
  · rw [h]
    exact ⟨rfl, rfl⟩
  · rw [h, hw, hs]
    exact ⟨rfl, rfl⟩

theorem Current.congr {w' : World} (h : Current w m e)
    (hst : w'.st.lookup .manifest = w.st.lookup .manifest) : Current w' m e := by
  unfold Current
  rw [hst]
  exact h

theorem Current.known {T : Track} (h : Current w m e) (hi : Inv T w g) :
    KnownManifest (stores w.hist) m e := by
  rcases h with h | ⟨-, he, hw, hs⟩
  · exact .inr (hi.store.held h)
  · exact .inl ⟨he, hw, hs⟩

theorem KnownManifest.mono {S S' : Stores} (h : KnownManifest S m e) (hs : ∀ x ∈ S, x ∈ S') :
    KnownManifest S' m e :=
  h.imp id fun ⟨who, hm⟩ => ⟨who, hs _ hm⟩

/-- A known manifest with the tag of the stored one is the stored one. -/
theorem KnownManifest.current {T : Track} {o : Obj} (h : KnownManifest (stores w.hist) m e)
    (hi : Inv T w g) (hl : w.st.lookup .manifest = some (o, e)) : Current w m e := by
  obtain ⟨who, hm⟩ := hi.store.held hl
  rcases h with ⟨he, -⟩ | ⟨who', hm'⟩
  · subst he
    exact absurd (hi.store.tag hm).1 (Nat.lt_irrefl 0)
  · obtain ⟨-, -, rfl⟩ := hi.store.tagInj hm hm'
    exact .inl hl

/-! ## The parameters of a handle -/

/-- Nobody else opens the handle of this thread. -/
def Mine (M : Mode) (who : Who) (s : State) : Prop :=
  s.2.ready who.inst ∨ M.opener who.inst = who

/-- Epoch, session and mode of a handle. -/
structure SameParams (s s' : State) (i : Nat) : Prop where
  epoch : (s'.1.inst i).epoch = (s.1.inst i).epoch
  session : (s'.1.inst i).session = (s.1.inst i).session
  skip : (s'.1.inst i).skipRevalidation = (s.1.inst i).skipRevalidation
  ready : s.2.ready i → s'.2.ready i

theorem Effect.params {who' : Who} (h : Effect M who' s s') (hne : who' ≠ who)
    (hm : Mine M who s) : SameParams s s' who.inst := by
  by_cases hr : s.2.ready who.inst
  · have := h.use hr
    exact ⟨this.epoch, this.session, this.skip, fun _ => this.ready⟩
  · have hop := hm.resolve_left hr
    by_cases hi : who.inst = who'.inst
    · rw [hi] at hr hop ⊢
      cases h with
      | tune y hy => exact ⟨by simp [hy.epoch], by simp [hy.session], by simp [hy.skip], id⟩
      | handle _ _ _ _ _ hopener | replay _ hopener | ready _ _ _ hopener =>
        exact absurd (hopener.symm.trans hop) hne
      | lock | unlock | stage | apply | discard | push | drain =>
        exact ⟨by simp, by simp, by simp, id⟩
      | _ => exact ⟨rfl, rfl, rfl, id⟩
    · have := h.other hi
      exact ⟨by rw [this.inst], by rw [this.inst], by rw [this.inst], fun hr => this.ready ▸ hr⟩

theorem SameParams.trans {s'' : State} {i : Nat} (h : SameParams s s' i)
    (h' : SameParams s' s'' i) : SameParams s s'' i :=
  ⟨h'.epoch.trans h.epoch, h'.session.trans h.session, h'.skip.trans h.skip,
    fun hr => h'.ready (h.ready hr)⟩

theorem Inert.params (h : Inert who s s') (i : Nat) : SameParams s s' i := by
  obtain ⟨c, f, hc⟩ := h.still.inst i
  exact ⟨by rw [hc], by rw [hc], by rw [hc], fun hr => by rw [h.still.ghost]; exact hr⟩

section Calm

variable (h : Calm M who s s')

include h

variable (hi : Inv M.toTrack s.1 s.2)

include hi

theorem Calm.params (hm : Mine M who s) : SameParams s s' who.inst := by
  refine (h.induct (R := fun x => SameParams s x who.inst) hi ⟨rfl, rfl, rfl, id⟩ ?_ ?_).2
  · intro _ a b who' _ ha hne he
    exact ha.trans (he.params hne (hm.imp ha.ready id))
  · intro a b _ ha hb
    exact ha.trans (hb.params _)

theorem Calm.mine (hm : Mine M who s) : Mine M who s' :=
  hm.imp (h.params hi hm).ready id

theorem Calm.suffix : s.1.hist <:+ s'.1.hist := by
  refine (h.induct (R := fun x => s.1.hist <:+ x.1.hist) hi (List.suffix_refl _) ?_ ?_).2
  · intro _ a b who' _ ha _ he
    exact ha.trans he.hist
  · intro a b hia ha hb
    exact ha.trans (hb.effect (M := M) hia).hist

theorem Calm.stores : ∀ x ∈ stores s.1.hist, x ∈ stores s'.1.hist :=
  fun _ hx => (stores_suffix (h.suffix hi)).subset hx

theorem Calm.grows : Grows s.1.archive s'.1.archive := by
  refine (h.induct (R := fun x => Grows s.1.archive x.1.archive) hi (.refl _) ?_ ?_).2
  · intro _ a b who' _ ha _ he
    exact ha.trans he.grows
  · intro a b hia ha hb
    exact ha.trans (hb.effect (M := M) hia).grows

theorem Calm.still (hs : M.solo) : Still s s' := by
  refine (h.induct (R := fun x => Still s x) hi (Still.refl s) ?_ ?_).2
  · exact fun hso => absurd hs hso
  · intro a b _ ha hb
    exact ha.trans hb.still

end Calm

/-! ## Loading the manifest -/

/-- A handle that does not revalidate its cache is alone, and its cache is
current. -/
def Sync (M : Mode) (i : Nat) (s : State) : Prop :=
  (s.1.inst i).skipRevalidation = true → M.solo ∧
    ∀ m e, (s.1.inst i).cache = some (m, e) → Current s.1 m e

/-- Steps of the others keep a cache in order. -/
theorem Sync.others (h : Sync M who.inst s) (hi : Inv M.toTrack s.1 s.2) (hm : Mine M who s)
    (ho : Others M who s s') : Sync M who.inst s' := by
  intro hskip
  rw [(ho.calm.params hi hm).skip] at hskip
  obtain ⟨hs, hc⟩ := h hskip
  rw [ho.1 hs]
  exact ⟨hs, hc⟩

/-- Without revalidation there is no concurrency. -/
theorem Sync.update {i : Nat} (h : (w.inst i).skipRevalidation = true → M.solo ∧ Current w m e) :
    Sync M i (w.setInst i { w.inst i with cache := some (m, e) }, g) := by
  intro hskip
  simp only [World.setInst_inst_self] at hskip
  obtain ⟨hs, hc⟩ := h hskip
  refine ⟨hs, fun m' e' heq => ?_⟩
  simp only [World.setInst_inst_self, Option.some.injEq, Prod.mk.injEq] at heq
  obtain ⟨rfl, rfl⟩ := heq
  exact hc.congr rfl

/-- What a thread has to know to read. -/
structure Reading (M : Mode) (who : Who) (s : State) : Prop where
  inv : Inv M.toTrack s.1 s.2
  mine : Mine M who s
  sync : Sync M who.inst s

namespace Reading

theorem others (h : Reading M who s) (ho : Others M who s s') : Reading M who s' :=
  ⟨ho.inv h.inv, ho.calm.mine h.inv h.mine, h.sync.others h.inv h.mine ho⟩

/-- An own step that leaves the cache alone. -/
theorem inert (h : Reading M who s) (hin : Inert who s s')
    (hc : (s'.1.inst who.inst).cache = (s.1.inst who.inst).cache) : Reading M who s' := by
  refine ⟨(hin.effect h.inv).inv h.inv, hin.calm.mine h.inv h.mine, fun hskip => ?_⟩
  rw [(hin.params _).skip] at hskip
  obtain ⟨hs, hcur⟩ := h.sync hskip
  refine ⟨hs, fun m e heq => ?_⟩
  rw [hc] at heq
  exact (hcur m e heq).congr (by rw [hin.still.st])

theorem uncached (h : Reading M who s) (hin : Inert who s s')
    (hc : (s'.1.inst who.inst).cache = none) : Reading M who s' := by
  refine ⟨(hin.effect h.inv).inv h.inv, hin.calm.mine h.inv h.mine, fun hskip => ?_⟩
  rw [(hin.params _).skip] at hskip
  refine ⟨(h.sync hskip).1, fun m e heq => ?_⟩
  rw [hc] at heq
  cases heq

end Reading

/-- A moment of a reading procedure. -/
def At (M : Mode) (who : Who) (s s' : State) (P : State → Prop) : Prop :=
  ∃ s₁, Reading M who s₁ ∧ Calm M who s s₁ ∧ Calm M who s₁ s' ∧ P s₁

/-- How a reading procedure ends: with `P`, or with an error for the reason `F`. -/
abbrev ReadEnds {α : Type} (M : Mode) (who : Who) (F : Prop) (P : α → State → Prop)
    (r : Res α) (s : State) : Prop :=
  Reading M who s ∧ match r with
    | .ok a => P a s
    | .error _ => F

section ReadEnds

variable {α β : Type} {p : Io α} {f : α → Io β} {F F' : Prop} {P : α → State → Prop}
  (h : IoSafe (readRules M) who p (ReadEnds M who F P) s) (hF : F → F')

include h hF

theorem IoSafe.readMono {Q : α → State → Prop}
    (hP : ∀ a s', Calm M who s s' → Reading M who s' → P a s' → Q a s') :
    IoSafe (readRules M) who p (ReadEnds M who F' Q) s := by
  refine h.calm ?_
  rintro (e | a) s' - hs' ⟨h', hr⟩
  · exact ⟨h', hF hr⟩
  · exact ⟨h', hP a s' hs' h' hr⟩

theorem IoSafe.readBind {Q : β → State → Prop}
    (hf : ∀ a s', Calm M who s s' → Reading M who s' → P a s' →
      IoSafe (readRules M) who (f a) (ReadEnds M who F' Q) s') :
    IoSafe (readRules M) who (p >>= f) (ReadEnds M who F' Q) s := by
  refine .bind (h.calm ?_)
  rintro (e | a) s' - hs' ⟨h', hr⟩
  · exact ⟨h', hF hr⟩
  · exact hf a s' hs' h' hr

end ReadEnds

/-- A storage read sees one moment. -/
theorem look_safe {a : Act (Res (Obj × Etag))} {G : World → Res (Obj × Etag) → Prop}
    (h : Reading M who s) (hlive : ∀ w c, (exec who c a w).isSome)
    (hx : ∀ {w c r t}, (rules M).ok c → exec who c a w = some (r, t) →
      G w r ∧ (t = w ∨ t = w.log who .polled)) :
    IoSafe (readRules M) who (Io.call a)
      (fun r s' => Reading M who s' ∧ At M who s s' fun s1 => G s1.1 r) s := by
  refine .call (readStep hlive fun s1 hs1 _ c r t hc hex => ?_)
  obtain ⟨hgot, ht⟩ := hx hc hex
  have hin : Inert who s1 (t, s1.2) := inert_polled ht
  have h1 := h.others hs1
  have h2 : Reading M who (t, s1.2) := h1.inert hin (by rcases ht with rfl | rfl <;> rfl)
  exact ⟨hin, fun s2 hs2 _ => ⟨h2.others hs2, s1, h1, hs1.calm, hin.calm.trans hs2.calm, hgot⟩⟩

theorem get_safe (p : ObjectPath) (h : Reading M who s) :
    IoSafe (readRules M) who (Io.call (.get p))
      (fun r s' => Reading M who s' ∧ At M who s s' fun s1 => Got M s1.1 p r) s :=
  look_safe h (fun w c => by dsimp only [exec]; split <;> rfl) exec_get

def GotOpts (M : Mode) (w : World) (p : ObjectPath) (etag : Etag) : Res (Obj × Etag) → Prop
  | .ok x => w.st.lookup p = some x
  | .error e => M.faults ∧ e = Fault.backend.error ∨
      w.st.lookup p = none ∧ e = .storage ("not found: " ++ p.name) ∨
      (∃ o, w.st.lookup p = some (o, etag)) ∧ e = .notModified

theorem exec_getOpts {c : Choice} {p : ObjectPath} {etag : Etag} {t : World} {r : Res (Obj × Etag)}
    (hc : (rules M).ok c) (h : exec who c (.getOpts p etag) w = some (r, t)) :
    GotOpts M w p etag r ∧ (t = w ∨ t = w.log who .polled) := by
  obtain ⟨ht, ⟨hf, rfl⟩ | rfl⟩ := exec_getOpts_cases h
  · exact ⟨.inl ⟨faults_of_fault hc hf, rfl⟩, ht⟩
  · refine ⟨?_, ht⟩
    unfold Storage.getOpts Storage.get
    cases hl : w.st.lookup p with
    | none => exact .inr (.inl ⟨hl, rfl⟩)
    | some x =>
      obtain ⟨o, e⟩ := x
      simp only
      split
      · rename_i he
        subst he
        exact .inr (.inr ⟨⟨o, hl⟩, rfl⟩)
      · exact hl

theorem getOpts_safe (p : ObjectPath) (etag : Etag) (h : Reading M who s) :
    IoSafe (readRules M) who (Io.call (.getOpts p etag))
      (fun r s' => Reading M who s' ∧ At M who s s' fun s1 => GotOpts M s1.1 p etag r) s :=
  look_safe h (fun w c => by dsimp only [exec]; split <;> rfl) exec_getOpts

/-- A new cache entry. -/
theorem cacheUpdate_safe (h : Reading M who s) (hk : KnownManifest (stores s.1.hist) m e)
    (hcur : M.solo → Current s.1 m e) :
    IoSafe (readRules M) who (Io.act (.cacheUpdate m e))
      (ReadEnds M who False fun _ _ => True) s := by
  refine .act (readStep (fun _ _ => rfl) fun s1 hs1 hi1 c r t _ hx => ?_)
  cases hx
  have h1 := h.others hs1
  have hin : Inert who s1 (s1.1.setInst who.inst { s1.1.inst who.inst with cache := some (m, e) },
      s1.2) := by
    refine .cache (some (m, e)) (s1.1.inst who.inst).sstCache (fun m' e' heq => ?_)
      (fun _ _ => hi1.handle.sstCache)
    cases heq
    exact hk.mono (hs1.calm.stores h.inv)
  refine ⟨hin, fun s2 hs2 _ => ⟨Reading.others ⟨(hin.effect hi1).inv hi1,
    hin.calm.mine hi1 h1.mine, Sync.update fun hskip => ?_⟩ hs2, trivial⟩⟩
  have hs := (h1.sync hskip).1
  exact ⟨hs, by rw [hs1.1 hs]; exact hcur hs⟩

theorem cacheClear_safe (h : Reading M who s) :
    IoSafe (readRules M) who (Io.act .cacheClear) (ReadEnds M who False fun _ _ => True) s := by
  refine .act (readStep (fun _ _ => rfl) fun s1 hs1 hi1 c r t _ hx => ?_)
  cases hx
  have hin : Inert who s1 (s1.1.setInst who.inst { s1.1.inst who.inst with cache := none },
      s1.2) :=
    .cache none (s1.1.inst who.inst).sstCache nofun (fun _ _ => hi1.handle.sstCache)
  exact ⟨hin, fun s2 hs2 _ => ⟨((h.others hs1).uncached hin (by simp)).others hs2, trivial⟩⟩

theorem At.known (h : At M who s s' fun s1 => Current s1.1 m e) :
    KnownManifest (stores s'.1.hist) m e ∧ (M.solo → Current s'.1 m e) := by
  obtain ⟨s1, h1, -, hs', hcur⟩ := h
  exact ⟨(hcur.known h1.inv).mono (hs'.stores h1.inv),
    fun hs => hcur.congr (by rw [(hs'.still h1.inv hs).st])⟩

theorem readManifest_safe (h : Reading M who s) :
    IoSafe (readRules M) who readManifest (ReadEnds M who M.faults fun x s' => match x with
      | some (m, e) => At M who s s' fun s1 => Current s1.1 m e
      | none => At M who s s' fun s1 => s1.1.st.lookup .manifest = none) s := by
  refine .attemptBind ((get_safe .manifest h).mono ?_)
  rintro r s' - ⟨h', s1, h1, hs1, hs', hgot⟩
  have hat : ∀ s'' (P : State → Prop), Others M who s' s'' → P s1 → At M who s s'' P :=
    fun s'' P ho hp => ⟨s1, h1, hs1, hs'.trans ho.calm, hp⟩
  match r, hgot with
  | .ok (o, e), hgot =>
    have hgot : s1.1.st.lookup .manifest = some (o, e) := hgot
    obtain ⟨who', hm⟩ := h1.inv.store.held hgot
    obtain ⟨m, rfl⟩ := h1.inv.store.manifestObj hm
    exact .pure fun s'' ho _ => ⟨h'.others ho, hat s'' _ ho (.inl hgot)⟩
  | .error err, hgot =>
    rcases hgot with ⟨hf, rfl⟩ | ⟨hnone, rfl⟩
    · exact .fail fun s'' ho _ => ⟨h'.others ho, hf⟩
    · exact .pure fun s'' ho _ => ⟨h'.others ho, hat s'' _ ho hnone⟩

abbrev Loaded (M : Mode) (who : Who) (s : State) :
    Res (Manifest × Etag) → State → Prop :=
  ReadEnds M who M.faults fun x s' => At M who s s' fun s₁ => Current s₁.1 x.1 x.2

/-- Publish a manifest in the cache and return it. -/
theorem cached_safe {s0 : State} (h : Reading M who s)
    (hat : At M who s0 s fun s1 => Current s1.1 m e) :
    IoSafe (readRules M) who (do Io.act (.cacheUpdate m e); return (m, e)) (Loaded M who s0) s := by
  obtain ⟨hk, hcur⟩ := hat.known
  obtain ⟨s1, h1, hs1, hs, hc⟩ := hat
  exact .readBind (cacheUpdate_safe h hk hcur) False.elim fun _ s' hs' h' _ => .pure fun s'' ho _ =>
    ⟨h'.others ho, s1, h1, hs1, (hs.trans hs').trans ho.calm, hc⟩

theorem loadManifest_safe (ttl : Bool) (h : Reading M who s) :
    IoSafe (readRules M) who (loadManifest cx ttl) (Loaded M who s) s := by
  refine .bind (.act (readStep (fun _ _ => rfl) fun s1 hs1 hi1 c r t _ hx => ?_))
  obtain ⟨o, b⟩ := r
  dsimp only [exec] at hx
  simp only [Option.some.injEq, Prod.mk.injEq] at hx
  obtain ⟨⟨hcache, hskip⟩, rfl⟩ := hx
  have hcache : ∀ x, o = some x → (s1.1.inst who.inst).cache = some x := by
    rintro x rfl
    split at hcache
    · exact hcache
    · cases hcache
  refine ⟨.idle, fun s2 hs2 _ => ?_⟩
  have h1 := h.others hs1
  have h2 := h1.others hs2
  have hcalm : Calm M who s s2 := hs1.calm.trans hs2.calm
  match o, b with
  | some (m, e), true =>
    exact .pure fun s' ho _ => ⟨h2.others ho, s1, h1, hs1.calm, hs2.calm.trans ho.calm,
      (h1.sync hskip).2 m e (hcache _ rfl)⟩
  | some (m, e), false =>
    refine .attemptBind ((getOpts_safe .manifest e h2).mono ?_)
    rintro r s3 - ⟨h3, s4, h4, hs4, hs3, hgot⟩
    have hat : ∀ {m' e'}, Current s4.1 m' e' → At M who s s3 fun s1 => Current s1.1 m' e' :=
      fun hc => ⟨s4, h4, hcalm.trans hs4, hs3, hc⟩
    match r, hgot with
    | .ok (o, e'), hgot =>
      have hgot : s4.1.st.lookup .manifest = some (o, e') := hgot
      obtain ⟨who', hm⟩ := h4.inv.store.held hgot
      obtain ⟨m', rfl⟩ := h4.inv.store.manifestObj hm
      exact cached_safe h3 (hat (.inl hgot))
    | .error err, hgot =>
      rcases hgot with ⟨hf, rfl⟩ | ⟨hnone, rfl⟩ | ⟨⟨o, hl⟩, rfl⟩
      · show IoSafe _ _ (if saysNotFound Fault.backend.error.text then _ else _) _ _
        rw [if_neg (by simp [saysNotFound_backend])]
        exact .fail fun s'' ho _ => ⟨h3.others ho, hf⟩
      · show IoSafe _ _ (if saysNotFound _ then _ else _) _ _
        rw [if_pos (saysNotFound_missing _)]
        exact cached_safe h3 (hat (.inr ⟨hnone, rfl, rfl, rfl⟩))
      · -- the tag of the stored manifest is the cached one
        have hcalm' : Calm M who s1 s4 := hs2.calm.trans hs4
        have hk := (h1.inv.handle.cache (hcache _ rfl)).mono (hcalm'.stores h1.inv)
        obtain ⟨s5, h5, hs5, hs3', hc⟩ := hat (hk.current h4.inv hl)
        exact .pure fun s'' ho _ => ⟨h3.others ho, s5, h5, hs5, hs3'.trans ho.calm, hc⟩
  | none, _ =>
    refine .readBind (readManifest_safe h2) id fun x s3 _ h3 hat => ?_
    match x, hat with
    | some (m, e), ⟨s4, h4, hs4, hs3, hc⟩ =>
      exact cached_safe h3 ⟨s4, h4, hcalm.trans hs4, hs3, hc⟩
    | none, ⟨s4, h4, hs4, hs3, hnone⟩ =>
      exact cached_safe h3
        ⟨s4, h4, hcalm.trans hs4, hs3, Or.inr ⟨hnone, rfl, rfl, rfl⟩⟩

end OxKv
