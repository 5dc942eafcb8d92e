import OxKv.Proc.Commit
import OxKv.Proc.Scan

/-!
Reads, deletes, sets, staged writes and commits as whole calls.

* `Agrees`: a value that was read against one of the contents;
* `Gated.seen`, `Outside.seen`: what a read sees under the gate, or alone;
* `delete_safe`, `setBytes_safe`, `stage_safe`, `flush_safe`, `maintain_safe`: the
  calls of a store.
-/

namespace OxKv

variable {M : Mode} {who : Who} {s s' s'' : State} {cx : Ctx}

/-! ## Reads -/

/-- Two values with the same presence; the same if values are followed exactly. -/
def Agrees (M : Mode) (y y' : Option Bytes) : Prop := y.isSome = y'.isSome ∧ (M.strict → y = y')

variable {y : Option Bytes}

theorem Agrees.of_shows {ob : Objects} {x : Option (Option Bytes)} {y' : Option Bytes}
    (h : Shows M.strict M.cr ob x y) (h' : Shows M.strict M.cr ob x y') : Agrees M y y' :=
  ⟨h.isSome.trans h'.isSome.symm, fun hs => h.unique hs h'⟩

/-- Weaken the postcondition of a reading procedure of a thread. -/
theorem Using.read {α : Type} {p : Io α} {Q Q' : Res α → State → Prop}
    (h : Using M who cx s) (hp : IoSafe (readRules M) who p Q s)
    (hread : ∀ r s', Q r s' → Reading M who s')
    (hQ : ∀ r s', Calm M who s s' → Using M who cx s' → Q r s' → Q' r s') :
    IoSafe (rules M) who p Q' s :=
  (hp.calm fun r s' _ hc hq => hQ r s' hc (h.calm hc (hread r s' hq)) hq).ofReads

theorem Outside.calm (h : Outside M who cx s) (hc : Calm M who s s') (hu : Using M who cx s') :
    Outside M who cx s' := by
  refine ⟨hu, fun hs => ?_, fun hs => ?_⟩
  all_goals
    obtain ⟨c, f, hi⟩ := (hc.still h.inv hs).inst who.inst
    rw [hi]
  · exact h.free hs
  · exact h.empty hs

/-- The owner's MemTable and the listed files show its contents. -/
theorem Using.shows (h : Using M who cx s) (ho : Owns s.1 who.inst) (key : Key) :
    M.Shows s.1 (liveHit M.cr s.1 who.inst key) (live s.1 s.2 who.inst key) :=
  (h.inv.live _ h.ready).hit ho key

variable {key : Key}

/-- Alone, a read sees the contents. -/
theorem Using.seen (h : Using M who cx s) (hs : M.solo) (hm : ¬ M.multi)
    (hy : Seen M who key y s s') : Agrees M y (live s.1 s.2 who.inst key) :=
  .of_shows (hy.alone hs h.inv) (h.shows (h.owns hm) key)

/-- Under the gate a read sees the contents, unless staged writes interfere. -/
theorem Gated.seen (h : Gated M who cx s) (hm : ¬ M.multi) (hst : M.solo ∨ ¬ M.staging)
    (hy : Seen M who key y s s') : Agrees M y (live s.1 s.2 who.inst key) := by
  obtain ⟨s1, h1, hs1, -, hor⟩ := hy
  have hmem : (s1.1.inst who.inst).mem = (s.1.inst who.inst).mem := (h.kept hs1).tended.mem hst
  have hshows := h.shows (h.owns hm) key
  unfold liveHit at hshows
  rw [← hmem] at hshows
  rcases hor with ⟨x, hx, hy⟩ | ⟨hnone, s2, h2, hs2, -, hy⟩
  · rw [hx, Option.some_or] at hshows
    exact .of_shows hy (hshows.mono (hs1.grows h.inv))
  · have hc : Calm M who s s2 := hs1.trans hs2
    have hg := hc.grows h.inv
    have howns := (h.calm hc h2).owns hm
    have hman : s2.1.manifest = s.1.manifest :=
      manifest_eq ((h.kept hc).tended.manifest (.inr howns)).1
    have hsst : sstHit M.cr s2.1 key = sstHit M.cr s.1 key := by
      unfold sstHit
      rw [hman]
      exact view_grows hg h.inv.store.listOk.ssts key
    have hy : M.Shows s2.1 (sstHit M.cr s2.1 key) y := hy
    rw [hsst] at hy
    rw [hnone, Option.none_or] at hshows
    exact .of_shows hy (hshows.mono hg)

/-! ## Deletes -/

/-- The outcome of the part of a delete under the gate: the read at `s₁` decides. -/
def Deleted (M : Mode) (who : Who) (cx : Ctx) (key : Key) (s : State)
    (r : Res (Option Bytes)) (s' : State) : Prop :=
  Gated M who cx s' ∧ ∃ ops, (¬ M.staging → ops = []) ∧
    (M.solo → ops ++ (s'.1.inst who.inst).walBuffer = (s.1.inst who.inst).walBuffer) ∧
    match r with
      | .error _ => Did M who (drainedEntries ops) [] s s' ∧
          (M.solo → M.faults ∨ M.multi ∨ ¬ M.short)
      | .ok old => ∃ s₁, Did M who (drainedEntries ops) [] s s₁ ∧ Gated M who cx s₁ ∧
          (¬ M.multi → M.solo ∨ ¬ M.staging → Agrees M old (live s₁.1 s₁.2 who.inst key)) ∧
          (M.solo → (s'.1.inst who.inst).walBuffer = []) ∧
          match old with
            | none => Did M who [] [] s₁ s'
            | some _ => Did M who [([], [(key, none)])] [(key, none)] s₁ s'

theorem deleteLocked_safe (h : Gated M who cx s) (hop : M.OkOp (key, none))
    (hidle : ¬ M.staging → batchOf who s.1.hist = []) :
    IoSafe (rules M) who (deleteLocked cx key) (Deleted M who cx key s) s := by
  refine .bind ((drainStagedLocked_safe h).mono ?_)
  rintro r s1 - ⟨h1, hr⟩
  match r, hr with
  | .error e, ⟨hd1, hb1, hwhy⟩ => exact ⟨h1, [], fun _ => rfl, hb1, hd1, fun _ => hwhy⟩
  | .ok _, ⟨ops, hd1, hst, hb1⟩ =>
    refine .bind (h1.read (getBytes_safe h1.crates h1.toReading key) (fun _ _ hq => hq.1) ?_)
    rintro r s2 hk2 h2 ⟨-, hr⟩
    have hbuf : M.solo → (s2.1.inst who.inst).walBuffer = [] := fun hs =>
      (hk2.tended.alone hs).1.trans (hb1 hs).2
    have hback : M.solo → ops ++ (s2.1.inst who.inst).walBuffer = (s.1.inst who.inst).walBuffer :=
      fun hs => by rw [hbuf hs, List.append_nil]; exact (hb1 hs).1
    have hd2 := hk2.tended.did
    have hd := hd1.trans hd2
    simp only [List.append_nil] at hd
    match r, hr with
    | .error e, hwhy =>
      refine ⟨h2, ops, hst, hback, hd, fun hs => ?_⟩
      rcases hwhy with hf | hns | hns
      · exact .inl hf
      · exact .inr (.inr fun hshort => hns (M.short_strict hshort))
      · exact absurd hs hns
    | .ok none, hseen =>
      refine .pure fun s3 ho _ => ?_
      have hk3 := h2.kept ho.calm
      refine ⟨h2.others ho, ops, hst, fun hs => ?_, s1, hd1, h1,
        fun hm hmode => h1.seen hm hmode hseen, fun hs => ?_, (hk2.trans hk3).tended.did⟩
      all_goals rw [(hk3.tended.alone hs).1]
      · exact hback hs
      · exact hbuf hs
    | .ok (some old), hseen =>
      cases henc : encodeOps [(key, none)] with
      | error e =>
        refine .bind (.ofRes fun s3 ho _ => ?_)
        have hk3 := h2.kept ho.calm
        have hd3 := hd.trans hk3.tended.did
        simp only [List.append_nil] at hd3
        refine ⟨h2.others ho, ops, hst, fun hs => ?_, hd3, fun _ => .inr (.inr fun hshort => ?_)⟩
        · rw [(hk3.tended.alone hs).1]
          exact hback hs
        · obtain ⟨b, hb⟩ := encodeOps_of_short hshort [(key, none)] (by simpa using hop)
          rw [henc] at hb
          cases hb
      | ok payload =>
        refine .bind (.ofRes fun s3 ho _ => ?_)
        have hk3 := h2.kept ho.calm
        have h3 := h2.others ho
        have hd3 := (hk2.trans hk3).tended.did
        have hap : Appendable M who payload [] [(key, none)] [(key, none)] s3 := by
          refine ⟨henc, by simpa using hop, Or.inl rfl, fun hst' => ⟨rfl, ?_⟩,
            fun hne => absurd rfl hne, fun _ => .inl rfl, Nat.zero_le _⟩
          obtain ⟨t, ht, hall⟩ := (hd.trans hk3.tended.did).hist
          rw [ht, batchOf_append hall]
          exact (hidle hst').symm
        refine .bind ((appendWalLocked_safe h3 hap).mono ?_)
        rintro r s4 - ⟨h4, hb4, hr⟩
        have hbuf4 : M.solo → (s4.1.inst who.inst).walBuffer = [] := fun hs => by
          rw [hb4 hs, (hk3.tended.alone hs).1]
          exact hbuf hs
        have hback4 : M.solo →
            ops ++ (s4.1.inst who.inst).walBuffer = (s.1.inst who.inst).walBuffer := fun hs => by
          rw [hbuf4 hs, List.append_nil]
          exact (hb1 hs).1
        match r, hr with
        | .error e, ⟨hd4, hwhy⟩ =>
          have hall := (hd.trans hk3.tended.did).trans hd4
          simp only [List.append_nil] at hall
          exact ⟨h4, ops, hst, hback4, hall, fun _ => hwhy.imp id Or.inl⟩
        | .ok _, hd4 =>
          refine .pure fun s5 ho5 _ => ?_
          have hk5 := h4.kept ho5.calm
          refine ⟨h4.others ho5, ops, hst, fun hs => ?_, s1, hd1, h1,
            fun hm hmode => h1.seen hm hmode hseen, fun hs => ?_,
            (hd3.trans hd4).trans hk5.tended.did⟩
          all_goals rw [(hk5.tended.alone hs).1]
          · exact hback4 hs
          · exact hbuf4 hs

def DeleteCall (M : Mode) (who : Who) (cx : Ctx) (key : Key) (s : State)
    (r : Res Bool) (s' : State) : Prop :=
  Outside M who cx s' ∧ ∃ ops, (¬ M.staging → ops = []) ∧
    (M.solo → ops ++ (s'.1.inst who.inst).walBuffer = (s.1.inst who.inst).walBuffer) ∧
    match r with
      | .error _ => Acted M who (drainedEntries ops) [] s s' ∧
          (M.solo → M.faults ∨ M.multi ∨ ¬ M.short)
      | .ok b => ∃ s₁, Acted M who (drainedEntries ops) [] s s₁ ∧ Gated M who cx s₁ ∧
          (¬ M.multi → M.solo ∨ ¬ M.staging → (live s₁.1 s₁.2 who.inst key).isSome = b) ∧
          (M.solo → (s'.1.inst who.inst).walBuffer = []) ∧
          Acted M who (if b then [([], [(key, none)])] else []) (if b then [(key, none)] else [])
            s₁ s'

/-- An action on what only the own handle looks at: its observers, its staging buffer. -/
theorem tuned_safe (h : Outside M who cx s) {a : Act Unit} {f : Inst → Inst}
    (hexec : ∀ c w, exec who c a w = some ((), w.setInst who.inst (f (w.inst who.inst))))
    (htuned : ∀ w g, Inv M.toTrack w g → Tuned M who w g (f (w.inst who.inst)))
    (hcache : ∀ x, (f x).cache = x.cache) :
    IoSafe (rules M) who (Io.act a) (fun r s' => r = .ok () ∧ Outside M who cx s' ∧
      Acted M who [] [] s s' ∧
      (M.solo → (s'.1.inst who.inst).walBuffer = (f (s.1.inst who.inst)).walBuffer)) s := by
  refine .act (useStep h.toUsing (fun _ _ _ _ => by rw [hexec]; rfl)
    fun s1 ho h1 c r t _ hx _ => ?_)
  cases (hexec ..).symm.trans hx
  have hy := htuned s1.1 s1.2 h1.inv
  have he : Effect M who s1 (s1.1.setInst who.inst (f (s1.1.inst who.inst)), s1.2) := .tune _ hy
  have h2 : Outside M who cx (s1.1.setInst who.inst (f (s1.1.inst who.inst)), s1.2) :=
    ⟨h1.own he (by simp [hcache]) rfl rfl,
      fun hs => by simpa [hy.gate] using (h.others ho).free hs,
      fun hs => by simpa [hy.pending] using (h.others ho).empty hs⟩
  have hact : Acted M who [] [] s1 _ :=
    .own (e := .polled) he h1.ready (.inr rfl) (by simp) (by simp) rfl
  refine ⟨_, he, fun s2 ho2 _ => ⟨rfl, h2.others ho2,
    ((Acted.of_others h.toUsing ho).trans hact).trans (.of_others h2.toUsing ho2), fun hs => ?_⟩⟩
  rw [ho2.1 hs, ← ho.1 hs]
  simp

/-- Publish an event. -/
theorem notify_safe (h : Outside M who cx s) (e : ChangeEvent) :
    IoSafe (rules M) who (Io.act (.notify e)) (fun r s' => r = .ok () ∧ Outside M who cx s' ∧
      Acted M who [] [] s s' ∧
      (M.solo → (s'.1.inst who.inst).walBuffer = (s.1.inst who.inst).walBuffer)) s :=
  tuned_safe h (f := fun x => { x with events := x.events ++ [e] }) (fun _ _ => rfl)
    (fun _ _ hi => ⟨rfl, rfl, rfl, rfl, rfl, rfl, le_refl _, le_refl _, Or.inr ⟨rfl, rfl⟩,
      fun _ _ => hi.handle.cache, fun _ _ => hi.handle.sstCache, hi.handle.bufferOk _,
      fun hs => hi.handle.buffer hs _⟩) fun _ => rfl

theorem delete_safe (h : Outside M who cx s) (hop : M.OkOp (key, none))
    (hidle : ¬ M.staging → batchOf who s.1.hist = []) :
    IoSafe (rules M) who (OxKv.delete cx key) (DeleteCall M who cx key s) s := by
  refine .bind (withGate_safe h.toUsing h.free fun s1 hp1 h1 hno1 => ?_)
  refine (deleteLocked_safe h1 hop fun hst => ?_).mono ?_
  · obtain ⟨t, ht, hall⟩ := hp1.hist
    rw [ht, batchOf_append hall]
    exact hidle hst
  rintro r s2 - ⟨h2, ops, hst, hback, hr⟩
  have hbuf1 : M.solo → (s1.1.inst who.inst).walBuffer = (s.1.inst who.inst).walBuffer :=
    fun hs => (hp1.alone hs).1
  have hpend1 : M.solo → (s1.1.inst who.inst).pending = [] :=
    fun hs => ((hp1.alone hs).2.1).trans (h.empty hs)
  match r, hr with
  | .error e, ⟨hd, hwhy⟩ =>
    refine ⟨h2, fun id pw hopen => hno1 id pw ((hd.opened id pw).mp hopen), fun s3 hp3 h3 hfree => ?_⟩
    have hact := (hp1.acted.trans hd.acted).trans hp3.acted
    simp only [List.append_nil, List.nil_append] at hact
    refine ⟨⟨h3, hfree, fun hs => ?_⟩, ops, hst, fun hs => ?_, hact, hwhy⟩
    · rw [(hp3.alone hs).2.1, (hd.alone hs).1]
      exact hpend1 hs
    · rw [(hp3.alone hs).1, ← hbuf1 hs]
      exact hback hs
  | .ok old, ⟨sᵣ, hd, hᵣ, hagree, hbuf, hrest⟩ =>
    obtain ⟨es, us, hdr, hes, hus⟩ : ∃ es us, Did M who es us sᵣ s2 ∧
        es = (if old.isSome then [([], [(key, none)])] else []) ∧
        us = if old.isSome then [(key, none)] else [] := by
      cases old with
      | none | some v => exact ⟨_, _, hrest, rfl, rfl⟩
    refine ⟨h2, fun id pw hopen => hno1 id pw
      ((hd.opened id pw).mp ((hdr.opened id pw).mp hopen)), fun s3 hp3 h3 hfree => ?_⟩
    have hout : Outside M who cx s3 := ⟨h3, hfree, fun hs => by
      rw [(hp3.alone hs).2.1, (hdr.alone hs).1, (hd.alone hs).1]
      exact hpend1 hs⟩
    have hact := hp1.acted.trans hd.acted
    have hact3 := hdr.acted.trans hp3.acted
    -- what holds when the gate is left holds after the event is published
    have hdone : ∀ s4, Outside M who cx s4 → Acted M who [] [] s3 s4 →
        (M.solo → (s4.1.inst who.inst).walBuffer = (s3.1.inst who.inst).walBuffer) →
        DeleteCall M who cx key s (.ok old.isSome) s4 := by
      intro s4 h4 hact4 hbuf4
      have hall := hact3.trans hact4
      simp only [List.append_nil, hes, hus] at hall
      refine ⟨h4, ops, hst, fun hs => ?_, sᵣ, hact, hᵣ, fun hm hmode => (hagree hm hmode).1.symm,
        fun hs => ?_, hall⟩
      · rw [hbuf4 hs, (hp3.alone hs).1, ← hbuf1 hs]
        exact hback hs
      · rw [hbuf4 hs, (hp3.alone hs).1]
        exact hbuf hs
    match old with
    | none =>
      exact .pure fun s4 ho _ => hdone s4 (hout.others ho) (.of_others hout.toUsing ho)
        fun hs => by rw [ho.1 hs]
    | some v =>
      refine .bind ((notify_safe hout _).mono ?_)
      rintro r s4 - ⟨rfl, h4, hact4, hbuf4⟩
      refine .pure fun s5 ho _ => hdone s5 (h4.others ho) ?_ fun hs => ?_
      · exact hact4.trans (.of_others h4.toUsing ho)
      · rw [ho.1 hs]
        exact hbuf4 hs

/-! ## Validation -/

/-- The procedure leaves a reader where it stands. -/
def Steady (M : Mode) (who : Who) {α : Type} (p : Io α) : Prop :=
  ∀ s, Reading M who s → IoSafe (readRules M) who p (fun _ s' => Reading M who s') s

theorem Steady.pure {α : Type} (a : α) : Steady M who (Pure.pure a : Io α) :=
  fun _ h => .pure fun _ ho _ => h.others ho

theorem Steady.map {α β : Type} {p : Io α} (h : Steady M who p) (f : α → β) :
    Steady M who (do return f (← p)) := by
  refine fun s hs => .bind ((h s hs).mono ?_)
  rintro (e | a) s1 - h1
  · exact h1
  · exact .pure fun _ ho _ => h1.others ho

theorem storeView_steady (hcr : cx.crates = M.cr) : (storeView cx).All (Steady M who) := by
  have hget : ∀ k, Steady M who (getBytes cx k) := fun k _ h =>
    (getBytes_safe hcr h k).mono fun _ _ _ hq => hq.1
  exact ⟨hget, fun k => (hget k).map _, fun limit d c _ h =>
    (getsBytes_safe hcr h limit d c).mono fun _ _ _ hq => hq.1⟩

theorem Check.run_safe {view : StoreView Io} (hview : view.All (Steady M who)) (c : Check)
    (h : Reading M who s) : IoSafe (readRules M) who (c.run view)
      (fun r s' => Reading M who s' ∧ c.MayEnd r) s := by
  induction c generalizing s with
  | done r => exact .ofRes fun _ ho _ => ⟨h.others ho, rfl⟩
  | get k next ih =>
    exact .attemptBind ((hview.get k s h).mono fun r _ _ h1 => (ih r h1).mono
      fun _ _ _ hq => ⟨hq.1, r, hq.2⟩)
  | has k next ih =>
    exact .attemptBind ((hview.has k s h).mono fun r _ _ h1 => (ih r h1).mono
      fun _ _ _ hq => ⟨hq.1, r, hq.2⟩)
  | gets limit d c next ih =>
    exact .attemptBind ((hview.getsBytes limit d c s h).mono fun r _ _ h1 => (ih r h1).mono
      fun _ _ _ hq => ⟨hq.1, r, hq.2⟩)

/-- The validation of a write as a part of its call. -/
theorem Outside.validate (h : Outside M who cx s) {view : StoreView Io}
    (hview : view.All (Steady M who)) (c : Check) : IoSafe (rules M) who (c.run view)
      (fun r s' => Calm M who s s' ∧ Outside M who cx s' ∧ c.MayEnd r) s :=
  h.toUsing.read (c.run_safe hview h.toReading) (fun _ _ hq => hq.1) fun _ _ hc hu hq =>
    ⟨hc, h.calm hc hu, hq.2⟩

/-! ## Sets -/

/-- The outcome of `set_bytes`: a failure before the put, or a read and then a put. -/
def SetCall (M : Mode) (who : Who) (cx : Ctx) (key : Key) (value : Bytes) (s : State)
    (r : Res (Option Bytes)) (s' : State) : Prop :=
  Outside M who cx s' ∧
    ((∃ e, r = .error e ∧ Acted M who [] [] s s' ∧
        ((cx.check key value).MayReject ∨ M.faults ∨ ¬ M.strict ∨ ¬ M.solo) ∧
        (M.solo → (s'.1.inst who.inst).walBuffer = (s.1.inst who.inst).walBuffer)) ∨
      ∃ prev s₁ r' s₂, Seen M who key prev s s₁ ∧ Outside M who cx s₁ ∧ Acted M who [] [] s s₁ ∧
        (M.solo → (s₁.1.inst who.inst).walBuffer = (s.1.inst who.inst).walBuffer) ∧
        Put M who cx key value s₁ r' s₂ ∧ r = r'.map (fun _ => prev) ∧
        Acted M who [] [] s₂ s' ∧
        (M.solo → (s'.1.inst who.inst).walBuffer = (s₂.1.inst who.inst).walBuffer))

theorem Outside.calm_acted (h : Outside M who cx s) (hc : Calm M who s s') :
    Acted M who [] [] s s' ∧
      (M.solo → (s'.1.inst who.inst).walBuffer = (s.1.inst who.inst).walBuffer) := by
  refine ⟨(hc.follows h.inv h.ready).passed.acted, fun hs => ?_⟩
  obtain ⟨c, f, hi⟩ := (hc.still h.inv hs).inst who.inst
  rw [hi]

theorem setBytes_safe (h : Outside M who cx s) {value : Bytes} (hop : M.OkOp (key, some value)) :
    IoSafe (rules M) who (setBytes cx key value) (SetCall M who cx key value s) s := by
  refine .bind ((h.validate (storeView_steady h.crates) _).mono ?_)
  rintro (e | _) s0 - ⟨hc0, h0, hrej⟩
  · obtain ⟨hact, hbuf⟩ := h.calm_acted hc0
    exact ⟨h0, Or.inl ⟨e, rfl, hact, .inl ⟨e, hrej⟩, hbuf⟩⟩
  · refine .bind (h0.toUsing.read (getBytes_safe h0.crates h0.toReading key)
      (fun _ _ hq => hq.1) ?_)
    rintro r s1 hc1 hu1 ⟨-, hr⟩
    have h1 := h0.calm hc1 hu1
    have hc : Calm M who s s1 := Relation.ReflTransGen.trans hc0 hc1
    obtain ⟨hact, hbuf⟩ := h.calm_acted hc
    match r, hr with
    | .error e, hwhy => exact ⟨h1, Or.inl ⟨e, rfl, hact, .inr hwhy, hbuf⟩⟩
    | .ok prev, hseen =>
      refine .bind ((putBytes_safe h1 hop).mono ?_)
      rintro r s2 - hput
      have h2 := hput.outside
      match r with
      | .error e =>
        refine ⟨h2, Or.inr ⟨prev, s1, _, s2, hseen.early hc0, h1, hact, hbuf, hput, rfl, ?_⟩⟩
        exact h2.calm_acted .refl
      | .ok _ =>
        refine .bind ((notify_safe h2 _).mono ?_)
        rintro r s3 - ⟨rfl, h3, hact3, hbuf3⟩
        refine .pure fun s4 ho4 _ => ⟨h3.others ho4, Or.inr ⟨prev, s1, _, s2,
          hseen.early hc0, h1, hact, hbuf, hput, rfl, ?_, fun hs => ?_⟩⟩
        · exact hact3.trans (.of_others h3.toUsing ho4)
        · rw [ho4.1 hs]
          exact hbuf3 hs

/-! ## Staged writes -/

/-- The outcome of a call that applies `us` and lists nothing. -/
structure Quiet (M : Mode) (who : Who) (cx : Ctx) (us : List Op) (s s' : State) : Prop where
  outside : Outside M who cx s'
  acted : Acted M who [] us s s'
  buffer : M.solo → (s'.1.inst who.inst).walBuffer = (s.1.inst who.inst).walBuffer ++ us

section Outside

variable (h : Outside M who cx s)

include h

theorem Outside.quiet (hc : Calm M who s s') (h' : Outside M who cx s') : Quiet M who cx [] s s' :=
  ⟨h', (h.calm_acted hc).1, fun hs => by rw [(h.calm_acted hc).2 hs, List.append_nil]⟩

theorem stageInsert_safe (hst : M.staging) {op : Op} (hop : M.OkOp op) :
    IoSafe (rules M) who (Io.act (.memInsert [op])) (fun r s' => r = .ok () ∧
      Outside M who cx s' ∧ Acted M who [] [op] s s' ∧
      (M.solo → (s'.1.inst who.inst).walBuffer = (s.1.inst who.inst).walBuffer)) s := by
  refine .act (useStep h.toUsing (fun _ _ _ _ => rfl) fun s1 ho h1 c r t _ hx _ => ?_)
  cases hx
  have he : Effect M who s1 ((s1.1.setInst who.inst { s1.1.inst who.inst with
      mem := (s1.1.inst who.inst).mem.insertAll [op] }).log who (.wrote [op]), s1.2) :=
    .stage [op] hst (fun hs => ((h1.inv.live _ h1.ready).free ((h.others ho).free hs)).2) h1.ready
      (by simpa using hop)
  have h2 : Outside M who cx ((s1.1.setInst who.inst { s1.1.inst who.inst with
      mem := (s1.1.inst who.inst).mem.insertAll [op] }).log who (.wrote [op]), s1.2) :=
    ⟨h1.own he (by simp) rfl rfl, fun hs => by simpa using (h.others ho).free hs,
      fun hs => by simpa using (h.others ho).empty hs⟩
  have hact : Acted M who [] [op] s1 _ := {
    hist := ⟨[(who, .wrote [op])], rfl, by simp⟩
    grows := he.grows
    use := he.use h1.ready
    lin := ⟨[], by simp, rfl, by simp, by simp⟩
    live := fun _ b => liveFrom_wrote b [op] _ }
  refine ⟨_, he, fun s2 ho2 _ => ⟨rfl, h2.others ho2, ?_, fun hs => ?_⟩⟩
  · exact ((Acted.of_others h.toUsing ho).trans hact).trans (.of_others h2.toUsing ho2)
  · rw [ho2.1 hs, ← ho.1 hs]
    simp

theorem bufferPush_safe (hst : M.staging) {op : Op} (hop : M.OkOp op) :
    IoSafe (rules M) who (Io.act (.bufferPush op)) (fun r s' => r = .ok () ∧
      Outside M who cx s' ∧ Acted M who [] [] s s' ∧
      (M.solo → (s'.1.inst who.inst).walBuffer = (s.1.inst who.inst).walBuffer ++ [op])) s := by
  refine tuned_safe h (f := fun x => { x with walBuffer := x.walBuffer ++ [op] }) (fun _ _ => rfl)
    (fun w g hi => ⟨rfl, rfl, rfl, rfl, rfl, rfl, le_refl _, le_refl _, Or.inr ⟨rfl, rfl⟩,
      fun _ _ => hi.handle.cache, fun _ _ => hi.handle.sstCache, fun x hx => ?_,
      fun hns => absurd hst hns⟩) fun _ => rfl
  rcases List.mem_append.mp hx with hx | hx
  · exact hi.handle.bufferOk _ x hx
  · rw [List.mem_singleton.mp hx]
    exact hop

theorem stage_safe (hst : M.staging) {op : Op} (hop : M.OkOp op) :
    IoSafe (rules M) who (stage op) (fun r s' => r = .ok () ∧ Quiet M who cx [op] s s') s := by
  refine .bind ((stageInsert_safe h hst hop).mono ?_)
  rintro r s1 - ⟨rfl, h1, hact1, hbuf1⟩
  refine (bufferPush_safe h1 hst hop).mono ?_
  rintro r s2 - ⟨rfl, h2, hact2, hbuf2⟩
  exact ⟨rfl, h2, hact1.trans hact2, fun hs => by rw [hbuf2 hs, hbuf1 hs]⟩

/-! ## Maintenance calls -/

/-- A maintenance procedure under the gate changes no contents. -/
theorem maintain_safe {α : Type} {p : Io α}
    (hp : ∀ s1, Gated M who cx s1 → IoSafe (rules M) who p (fun _ s2 => Maintained M who cx s1 s2) s1) :
    IoSafe (rules M) who (withGate p) (fun _ s' => Quiet M who cx [] s s') s := by
  refine withGate_safe h.toUsing h.free fun s1 hp1 h1 hno1 => (hp s1 h1).mono ?_
  rintro r s2 - ⟨hw, h2⟩
  refine ⟨h2, fun id pw hop => hno1 id pw ((hw.opened id pw).mp hop), fun s3 hp3 h3 hfree => ?_⟩
  refine ⟨⟨h3, hfree, fun hs => ?_⟩, (hp1.acted.trans hw.did.acted).trans hp3.acted, fun hs => ?_⟩
  · rw [(hp3.alone hs).2.1, (hw.alone hs).2.1, (hp1.alone hs).2.1]
    exact h.empty hs
  · rw [(hp3.alone hs).1, (hw.alone hs).1, (hp1.alone hs).1, List.append_nil]

theorem flushMemToSstForce_safe :
    IoSafe (rules M) who (flushMemToSstForce cx) (fun _ s' => Quiet M who cx [] s s') s :=
  maintain_safe h fun _ h1 => (flushMemToSstInner_safe h1 true).mono fun _ _ _ hq => hq.1

theorem flushMemToSst_safe :
    IoSafe (rules M) who (flushMemToSst cx) (fun _ s' => Quiet M who cx [] s s') s :=
  maintain_safe h fun _ h1 => (flushMemToSstInner_safe h1 false).mono fun _ _ _ hq => hq.1

theorem compact_safe : IoSafe (rules M) who (compact cx) (fun _ s' => Quiet M who cx [] s s') s :=
  maintain_safe h fun _ h1 => compactInner_safe h1

theorem gcOrphans_safe :
    IoSafe (rules M) who (gcOrphans cx) (fun _ s' => Quiet M who cx [] s s') s :=
  maintain_safe h fun _ h1 => (gcOrphansInner_safe h1).mono fun _ _ _ hq => ⟨hq.1.toWorked, hq.2⟩

/-- The public `gc_wal` does not look at the MemTable, so it is only covered where
the acknowledged contents are not followed. -/
theorem gcWal_safe (hcov : ¬ M.durable ∨ M.multi) :
    IoSafe (rules M) who (gcWal cx) (fun _ s' => Quiet M who cx [] s s') s :=
  maintain_safe h fun _ h1 => gcWalInner_safe h1 fun hd hm => hcov.elim (absurd hd) (absurd · hm)

end Outside

/-! ## Draining -/

def FlushCall (M : Mode) (who : Who) (cx : Ctx) (s : State) (r : Res Unit)
    (s' : State) : Prop :=
  Outside M who cx s' ∧ match r with
    | .ok _ => ∃ ops, Acted M who (drainedEntries ops) [] s s' ∧ (¬ M.staging → ops = []) ∧
        (M.solo → ops = (s.1.inst who.inst).walBuffer ∧ (s'.1.inst who.inst).walBuffer = [])
    | .error _ => Acted M who [] [] s s' ∧
        (M.solo → (s'.1.inst who.inst).walBuffer = (s.1.inst who.inst).walBuffer) ∧
        (M.faults ∨ M.multi ∨ ¬ M.short)

theorem flush_safe (h : Outside M who cx s) :
    IoSafe (rules M) who (flush cx) (FlushCall M who cx s) s := by
  refine withGate_safe h.toUsing h.free fun s1 hp1 h1 hno1 => (drainStagedLocked_safe h1).mono ?_
  rintro r s2 - ⟨h2, hr⟩
  match r, hr with
  | .ok _, ⟨ops, hd, hst, hbuf⟩ =>
    refine ⟨h2, fun id pw hop => hno1 id pw ((hd.opened id pw).mp hop), fun s3 hp3 h3 hfree => ?_⟩
    have hact := (hp1.acted.trans hd.acted).trans hp3.acted
    simp only [List.append_nil, List.nil_append] at hact
    refine ⟨⟨h3, hfree, fun hs => ?_⟩, ops, hact, hst, fun hs => ⟨?_, ?_⟩⟩
    · rw [(hp3.alone hs).2.1, (hd.alone hs).1, (hp1.alone hs).2.1]
      exact h.empty hs
    · exact (hbuf hs).1.trans (hp1.alone hs).1
    · exact ((hp3.alone hs).1).trans (hbuf hs).2
  | .error e, ⟨hd, hbuf, hwhy⟩ =>
    refine ⟨h2, fun id pw hop => hno1 id pw ((hd.opened id pw).mp hop), fun s3 hp3 h3 hfree => ?_⟩
    refine ⟨⟨h3, hfree, fun hs => ?_⟩, (hp1.acted.trans hd.acted).trans hp3.acted, fun hs => ?_,
      hwhy⟩
    · rw [(hp3.alone hs).2.1, (hd.alone hs).1, (hp1.alone hs).2.1]
      exact h.empty hs
    · rw [(hp3.alone hs).1, hbuf hs, (hp1.alone hs).1]

end OxKv
