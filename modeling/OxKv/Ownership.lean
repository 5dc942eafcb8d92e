import OxKv.Engine.IoRules
import OxKv.Engine.Calls

/-!
`acquire_ownership` under contention.

Any number of contenders read the ownership record and try to replace it; their
steps interleave in any way and storage calls may fail without effect. Every
contender stores at most one record (`CallLog`), and the stored records, newest
first, have descending tags and epochs (`EpochInv`).

* `EpochInv.grant`: the step of a successful conditional write;
* `contender_safe`: a contender keeps the invariant in any environment;
* `ownership_epochs`: the law of the epochs for every reachable pool.
-/

namespace OxKv

/-! ## Contenders -/

/-- One `acquire_ownership` call that reports its beginning and its outcome. -/
def contender (session : String) : Prog Act Unit :=
  .act (.mark (.invoked 0)) fun _ =>
    Prog.bind (acquireOwnership session) fun r =>
      .act (.mark (.returned 0 (.acquired r))) fun _ => .ret ()

def contenders (sessions : List String) : List (Who × Prog Act Unit) :=
  sessions.mapIdx fun j s => (⟨j, j⟩, contender s)

theorem getElem?_contenders {sessions : List String} {j : Nat} {w : Who} {p : Prog Act Unit}
    (h : (contenders sessions)[j]? = some (w, p)) :
    ∃ s, j < sessions.length ∧ w = ⟨j, j⟩ ∧ p = contender s := by
  rw [contenders, List.getElem?_mapIdx] at h
  obtain ⟨s, hs, heq⟩ := Option.map_eq_some_iff.mp h
  obtain ⟨rfl, rfl⟩ := Prod.mk.inj heq
  exact ⟨s, (List.getElem?_eq_some_iff.mp hs).1, rfl, rfl⟩

theorem contenders_distinct (sessions : List String) :
    Rules.Distinct (M := engine) (contenders sessions) := by
  have hnodup : ((contenders sessions).map Prod.fst).Nodup := by
    rw [contenders, List.nodup_iff_injective_get]
    intro a b hab
    simp only [List.get_eq_getElem, List.getElem_map, List.getElem_mapIdx, Who.mk.injEq] at hab
    exact Fin.ext hab.1
  exact hnodup

/-! ## Reading the history -/

/-- What one thread did, newest first. -/
def ownEvents (who : Who) (h : History) : List What :=
  (h.filter fun x => x.1 = who).map Prod.snd

theorem ownEvents_cons_self (who : Who) (e : What) (h : History) :
    ownEvents who ((who, e) :: h) = e :: ownEvents who h := by
  simp [ownEvents]

theorem ownEvents_cons_ne {who who' : Who} (hne : who' ≠ who) (e : What)
    (h : History) : ownEvents who ((who', e) :: h) = ownEvents who h := by
  simp [ownEvents, hne]

theorem ownEvents_append (who : Who) (h h' : History) :
    ownEvents who (h ++ h') = ownEvents who h ++ ownEvents who h' := by
  simp [ownEvents]

variable {h : History}

theorem mem_ownEvents {who : Who} {e : What} : e ∈ ownEvents who h ↔ (who, e) ∈ h := by
  simp [ownEvents]

/-- The ownership records stored so far and who stored them, newest first. -/
def grants (h : History) : List (Who × OwnershipRecord × Etag) :=
  h.filterMap fun
    | (who, .stored .ownership (.ownership r) e) => some (who, r, e)
    | _ => none

/-- Every ownership record there ever was, newest first; `first` is the one the
run began with. -/
def ownershipRecords (first : Option (OwnershipRecord × Etag)) (h : History) :
    List (OwnershipRecord × Etag) :=
  (grants h).map Prod.snd ++ first.toList

theorem mem_grants {who : Who} {r : OwnershipRecord} {e : Etag} :
    (who, r, e) ∈ grants h ↔ (who, .stored .ownership (.ownership r) e) ∈ h := by
  unfold grants
  rw [List.mem_filterMap]
  constructor
  · rintro ⟨⟨who', ev⟩, hm, heq⟩
    split at heq
    · rename_i hev
      cases heq
      rw [← hev]
      exact hm
    · cases heq
  · exact fun hm => ⟨_, hm, rfl⟩

theorem grants_append (h h' : History) : grants (h ++ h') = grants h ++ grants h' :=
  List.filterMap_append

theorem grants_suffix {h' : History} (hs : h <:+ h') : grants h <:+ grants h' :=
  hs.filterMap _

/-- What a contender has done so far: it stores at most one record, and it
returns `Ok` exactly with the record it stored. -/
inductive CallLog : List What → Prop where
  | idle : CallLog []
  | invoked : CallLog [.mark (.invoked 0)]
  | granted (r : OwnershipRecord) (e : Etag) :
      CallLog [.stored .ownership (.ownership r) e, .mark (.invoked 0)]
  | acquired (r : OwnershipRecord) (e : Etag) :
      CallLog [.mark (.returned 0 (.acquired (.ok r))), .stored .ownership (.ownership r) e,
        .mark (.invoked 0)]
  | failed (err : StoreError) :
      CallLog [.mark (.returned 0 (.acquired (.error err))), .mark (.invoked 0)]

namespace CallLog

variable {l : List What} {r : OwnershipRecord}

theorem eq_of_ok (h : CallLog l) (hm : .mark (.returned 0 (.acquired (.ok r))) ∈ l) :
    ∃ e, l = [.mark (.returned 0 (.acquired (.ok r))), .stored .ownership (.ownership r) e,
      .mark (.invoked 0)] := by
  cases h <;> simp at hm
  subst hm
  exact ⟨_, rfl⟩

theorem eq_of_error {err : StoreError} (h : CallLog l)
    (hm : .mark (.returned 0 (.acquired (.error err))) ∈ l) :
    l = [.mark (.returned 0 (.acquired (.error err))), .mark (.invoked 0)] := by
  cases h <;> simp at hm
  subst hm
  rfl

end CallLog

/-! ## The invariant -/

def recordedEpoch (first : Option (OwnershipRecord × Etag)) : Nat :=
  (first.map fun x => x.1.epoch).getD 0

/-- The invariant of `n` contenders over a prefix that began with the record
`first`. -/
structure EpochInv (first : Option (OwnershipRecord × Etag)) (n : Nat) (w : World) : Prop where
  cur : w.st.lookup .ownership =
    (ownershipRecords first w.hist).head?.map fun x => (.ownership x.1, x.2)
  tags : (ownershipRecords first w.hist).Pairwise fun a b => b.2 < a.2
  top : ∀ x ∈ ownershipRecords first w.hist, x.2 ≤ w.st.seq
  epochs : (ownershipRecords first w.hist).Pairwise fun a b => b.1.epoch < a.1.epoch
  /-- every grant counts the epoch up by one -/
  newest : ∀ x ∈ (ownershipRecords first w.hist).head?,
    x.1.epoch = recordedEpoch first + (grants w.hist).length
  log : ∀ who, CallLog (ownEvents who w.hist)
  /-- no contender is granted twice -/
  once : ((grants w.hist).map Prod.fst).Nodup
  who : ∀ x ∈ w.hist, ∃ j < n, x.1 = ⟨j, j⟩

namespace EpochInv

variable {first : Option (OwnershipRecord × Etag)} {n : Nat} {w : World} {who : Who}

theorem grants_length (h : EpochInv first n w) : (grants w.hist).length ≤ n := by
  have hsub : (grants w.hist).map Prod.fst ⊆ (List.range n).map fun j => (⟨j, j⟩ : Who) := by
    intro who hm
    obtain ⟨⟨who', r, e⟩, hg, rfl⟩ := List.mem_map.mp hm
    obtain ⟨j, hj, hwho⟩ := h.who _ (mem_grants.mp hg)
    exact List.mem_map.mpr ⟨j, List.mem_range.mpr hj, hwho.symm⟩
  simpa using (List.subperm_of_subset h.once hsub).length_le

/-- Nothing happens but a report in the history. -/
theorem note (h : EpochInv first n w) {m : Mark} (hlog : CallLog (.mark m :: ownEvents who w.hist))
    (hwho : ∃ j < n, who = ⟨j, j⟩) : EpochInv first n (w.log who (.mark m)) where
  cur := h.cur
  tags := h.tags
  top := h.top
  epochs := h.epochs
  newest := h.newest
  log who' := by
    by_cases hne : who = who'
    · subst hne
      rw [World.log_hist, ownEvents_cons_self]
      exact hlog
    · rw [World.log_hist, ownEvents_cons_ne hne]
      exact h.log who'
  once := h.once
  who x hx := by
    rcases List.mem_cons.mp hx with rfl | hx
    · exact hwho
    · exact h.who x hx

/-- A record whose tag is the current one is the current record. -/
theorem head_of_tag (h : EpochInv first n w) {r : OwnershipRecord} {e : Etag} {o : Obj}
    (hm : (r, e) ∈ ownershipRecords first w.hist)
    (hl : w.st.lookup .ownership = some (o, e)) :
    (ownershipRecords first w.hist).head? = some (r, e) := by
  have htags := h.tags
  rw [h.cur] at hl
  cases hrec : ownershipRecords first w.hist with
  | nil => rw [hrec] at hm; cases hm
  | cons x rest =>
    rw [hrec] at hl hm htags
    obtain ⟨-, he⟩ := Prod.mk.inj (Option.some.inj hl)
    rcases List.mem_cons.mp hm with rfl | hm
    · rfl
    · have := (List.pairwise_cons.mp htags).1 _ hm
      simp only [he, lt_self_iff_false] at this

/-- A new record on top of the others. -/
theorem push (h : EpochInv first n w) {r : OwnershipRecord}
    (hepoch : r.epoch = recordedEpoch first + (grants w.hist).length + 1)
    (hbelow : ∀ x ∈ ownershipRecords first w.hist, x.1.epoch < r.epoch)
    (hlog : ownEvents who w.hist = [.mark (.invoked 0)]) (hwho : ∃ j < n, who = ⟨j, j⟩) :
    EpochInv first n ({ w with st := w.st.insert .ownership (.ownership r) }.log who
      (.stored .ownership (.ownership r) (w.st.seq + 1))) where
  cur := by simp [ownershipRecords, grants]
  tags := List.pairwise_cons.mpr ⟨fun x hx => Nat.lt_succ_of_le (h.top x hx), h.tags⟩
  top x hx := by
    rcases List.mem_cons.mp hx with rfl | hx
    · exact le_refl _
    · exact Nat.le_succ_of_le (h.top x hx)
  epochs := List.pairwise_cons.mpr ⟨hbelow, h.epochs⟩
  newest x hx := by
    cases hx
    exact hepoch
  log who' := by
    by_cases hne : who = who'
    · subst hne
      rw [World.log_hist, ownEvents_cons_self, hlog]
      exact .granted r _
    · rw [World.log_hist, ownEvents_cons_ne hne]
      exact h.log who'
  once := by
    refine List.nodup_cons.mpr ⟨fun hm => ?_, h.once⟩
    obtain ⟨⟨who', r', e'⟩, hg, rfl⟩ := List.mem_map.mp hm
    have := mem_ownEvents.mpr (mem_grants.mp hg)
    simp [hlog] at this
  who x hx := by
    rcases List.mem_cons.mp hx with rfl | hx
    · exact hwho
    · exact h.who x hx

/-- What a contender learned from its read: the record and tag it replaces, or
that there is none. -/
inductive Read (recs : List (OwnershipRecord × Etag)) : Nat → PutMode → Prop where
  | update (r : OwnershipRecord) (e : Etag) (hm : (r, e) ∈ recs) :
      Read recs (saturatingAdd r.epoch 1) (.update e)
  | create : Read recs 1 .create

theorem grant (h : EpochInv first n w) (hroom : recordedEpoch first + n < 2 ^ 64 - 1)
    {epoch : Nat} {session : String} {mode : PutMode} {e : Etag} {st' : Storage}
    (hread : Read (ownershipRecords first w.hist) epoch mode)
    (hput : w.st.putOpts .ownership (.ownership ⟨epoch, session⟩) mode = (.ok e, st'))
    (hlog : ownEvents who w.hist = [.mark (.invoked 0)]) (hwho : ∃ j < n, who = ⟨j, j⟩) :
    EpochInv first n ({ w with st := st' }.log who
      (.stored .ownership (.ownership ⟨epoch, session⟩) e)) := by
  obtain ⟨rfl, rfl, hadm⟩ := Storage.putOpts_ok hput
  cases hread with
  | create =>
    have hnil : ownershipRecords first w.hist = [] := by
      have hcur := h.cur
      rw [show w.st.lookup .ownership = none from hadm] at hcur
      simpa using hcur.symm
    obtain ⟨hgrants, hfirst⟩ := List.append_eq_nil_iff.mp hnil
    have hgrants : grants w.hist = [] := by simpa using hgrants
    have hfirst : first = none := by simpa using hfirst
    refine h.push ?_ (by simp [hnil]) hlog hwho
    simp [hgrants, hfirst, recordedEpoch]
  | update r e hm =>
    obtain ⟨o, hl⟩ := hadm
    have hhead := h.head_of_tag hm hl
    have hepoch : r.epoch = _ := h.newest _ hhead
    have hlen := h.grants_length
    -- the counter is below its maximum, so the addition does not saturate
    have hsucc : saturatingAdd r.epoch 1 = r.epoch + 1 := by
      unfold saturatingAdd
      omega
    refine h.push (hsucc.trans (by rw [hepoch])) (fun x hx => ?_) hlog hwho
    rw [hsucc]
    have hepochs := h.epochs
    cases hrec : ownershipRecords first w.hist with
    | nil => rw [hrec] at hx; cases hx
    | cons y rest =>
      rw [hrec] at hx hhead hepochs
      cases hhead
      rcases List.mem_cons.mp hx with rfl | hx
      · exact Nat.lt_succ_self _
      · exact Nat.lt_succ_of_lt ((List.pairwise_cons.mp hepochs).1 x hx)

end EpochInv

/-! ## The contenders keep it -/

/-- Another thread adds to the history, but not in this thread's name. -/
def epochRules (first : Option (OwnershipRecord × Etag)) (n : Nat) : Rules engine where
  Ghost := Unit
  inv s := EpochInv first n s.1
  rely who s s' := ownEvents who s'.1.hist = ownEvents who s.1.hist ∧ s.1.hist <:+ s'.1.hist
  guar who s s' := (∀ who' ≠ who, ownEvents who' s'.1.hist = ownEvents who' s.1.hist) ∧
    s.1.hist <:+ s'.1.hist
  ok _ := True
  allow := fun _ _ _ _ _ => True
  live := False
  rely_refl _ s := ⟨rfl, List.suffix_refl s.1.hist⟩
  rely_trans _ _ _ _ h h' := ⟨h'.1.trans h.1, h.2.trans h'.2⟩

theorem epochRules_compatible (first : Option (OwnershipRecord × Etag)) (n : Nat) :
    (epochRules first n).Compatible :=
  fun _ _ _ _ hne hg => ⟨hg.1 _ (Ne.symm hne), hg.2⟩

section Contender

variable {first : Option (OwnershipRecord × Etag)} {n : Nat} {who : Who} {α : Type}

variable {Q : α → World × Unit → Prop} {s : World × Unit}

/-- One action of a contender. -/
theorem epochAct {β : Type} {a : Act β} {k : β → Prog Act α} {l : List What}
    (hl : ownEvents who s.1.hist = l)
    (h : ∀ w c r w', ownEvents who w.hist = l → s.1.hist <:+ w.hist → EpochInv first n w →
      exec who c a w = some (r, w') → EpochInv first n w' ∧
      (∀ who' ≠ who, ownEvents who' w'.hist = ownEvents who' w.hist) ∧
      Safe (epochRules first n) who (k r) Q (w', ())) :
    Safe (epochRules first n) who (.act a k) Q s := by
  intro s' hr hi
  refine ⟨fun hlive => hlive.elim, fun c r t _ hx _ => ⟨(), ?_⟩⟩
  obtain ⟨hinv, hown, hk⟩ := h s'.1 c r t (hr.1.trans hl) hr.2 hi hx
  exact ⟨hinv, ⟨hown, exec_hist hx⟩, hk⟩

theorem epochMark {m : Mark} {k : Unit → Prog Act α} {l : List What} (hwho : ∃ j < n, who = ⟨j, j⟩)
    (hl : ownEvents who s.1.hist = l) (hlog : CallLog (.mark m :: l))
    (h : ∀ s' : World × Unit, ownEvents who s'.1.hist = .mark m :: l →
      Safe (epochRules first n) who (k ()) Q s') :
    Safe (epochRules first n) who (.act (.mark m) k) Q s := by
  refine epochAct hl fun w c r w' hw _ hi hx => ?_
  cases hx
  refine ⟨hi.note (by rw [hw]; exact hlog) hwho, fun who' hne => ?_, h _ ?_⟩
  · exact ownEvents_cons_ne (Ne.symm hne) _ _
  · rw [World.log_hist, ownEvents_cons_self, hw]

variable {session : String}

theorem acquirePut_safe (hroom : recordedEpoch first + n < 2 ^ 64 - 1)
    (hwho : ∃ j < n, who = ⟨j, j⟩) {epoch : Nat} {mode : PutMode} {k : Res Etag → Prog Act α}
    (hl : ownEvents who s.1.hist = [.mark (.invoked 0)])
    (hread : EpochInv.Read (ownershipRecords first s.1.hist) epoch mode)
    (hok : ∀ (s' : World × Unit) (e : Etag),
      ownEvents who s'.1.hist =
        [.stored .ownership (.ownership ⟨epoch, session⟩) e, .mark (.invoked 0)] →
      Safe (epochRules first n) who (k (.ok e)) Q s')
    (herr : ∀ (s' : World × Unit) (err : StoreError),
      ownEvents who s'.1.hist = [.mark (.invoked 0)] →
      Safe (epochRules first n) who (k (.error err)) Q s') :
    Safe (epochRules first n) who
      (.act (.putOpts .ownership (.ownership ⟨epoch, session⟩) mode) k) Q s := by
  refine epochAct hl fun w c r w' hw hs hi hx => ?_
  dsimp only [exec] at hx
  split at hx
  · cases hx
    exact ⟨hi, fun _ _ => rfl, herr _ _ hw⟩
  · split at hx
    · rename_i e st' hput
      cases hx
      have hread' : EpochInv.Read (ownershipRecords first w.hist) epoch mode := by
        cases hread with
        | create => exact .create
        | update r e hm =>
          refine .update r e ?_
          rcases List.mem_append.mp hm with hm | hm
          · exact List.mem_append_left _ (((grants_suffix hs).map Prod.snd).subset hm)
          · exact List.mem_append_right _ hm
      refine ⟨hi.grant hroom hread' hput hw hwho, fun who' hne => ?_, hok _ e ?_⟩
      · exact ownEvents_cons_ne (Ne.symm hne) _ _
      · rw [World.log_hist, ownEvents_cons_self]
        exact congrArg _ hw
    · cases hx
      exact ⟨hi, fun _ _ => rfl, herr _ _ hw⟩

/-- `acquire_ownership` stores the record it returns, and nothing when it fails. -/
theorem acquireOwnership_safe (hroom : recordedEpoch first + n < 2 ^ 64 - 1)
    (hwho : ∃ j < n, who = ⟨j, j⟩) (hl : ownEvents who s.1.hist = [.mark (.invoked 0)]) :
    Safe (epochRules first n) who (acquireOwnership session) (fun r s' =>
      match r with
      | .ok rec => ∃ e, ownEvents who s'.1.hist =
          [.stored .ownership (.ownership rec) e, .mark (.invoked 0)]
      | .error _ => ownEvents who s'.1.hist = [.mark (.invoked 0)]) s := by
  refine epochAct hl fun w c r w' hw hs hi hx => ?_
  have hw' : w' = w := by
    dsimp only [exec] at hx
    split at hx <;> cases hx <;> rfl
  subst hw'
  refine ⟨hi, fun _ _ => rfl, ?_⟩
  cases r with
  | ok x =>
    have hlook := exec_get_ok hx
    have hcur := hi.cur
    rw [hlook] at hcur
    obtain ⟨⟨rec, e'⟩, hhead, heq⟩ := Option.map_eq_some_iff.mp hcur.symm
    cases heq
    refine acquirePut_safe hroom hwho hw (.update rec e' (List.mem_of_mem_head? hhead))
      (fun s1 e he t hr _ => ⟨e, hr.1.trans he⟩) fun s1 err he => ?_
    cases err <;> exact fun t hr _ => hr.1.trans he
  | error err =>
    show Safe _ _ (Prog.bind (if saysNotFound err.text then _ else _ : Io (Nat × PutMode)) _) _ _
    split
    · refine acquirePut_safe hroom hwho hw .create
        (fun s1 e he t hr _ => ⟨e, hr.1.trans he⟩) fun s1 err he => ?_
      cases err <;> exact fun t hr _ => hr.1.trans he
    · exact fun t hr _ => hr.1.trans hw

theorem contender_safe (hroom : recordedEpoch first + n < 2 ^ 64 - 1) (hwho : ∃ j < n, who = ⟨j, j⟩)
    (hl : ownEvents who s.1.hist = []) :
    Safe (epochRules first n) who (contender session)
      (fun _ s' => ∃ r, (who, .mark (.returned 0 (.acquired r))) ∈ s'.1.hist) s := by
  have hreport : ∀ {r : Res OwnershipRecord} {l : List What} {s' : World × Unit},
      ownEvents who s'.1.hist = l → CallLog (.mark (.returned 0 (.acquired r)) :: l) →
      Safe (epochRules first n) who (.act (.mark (.returned 0 (.acquired r))) fun _ => .ret ())
        (fun _ s' => ∃ r, (who, .mark (.returned 0 (.acquired r))) ∈ s'.1.hist) s' := by
    intro r l s' hl' hlog
    refine epochMark hwho hl' hlog fun s'' hs'' t hr _ => ⟨r, mem_ownEvents.mp ?_⟩
    rw [hr.1, hs'']
    exact List.mem_cons_self
  refine epochMark hwho hl .invoked fun s' hs' => ?_
  refine .bind ((acquireOwnership_safe hroom hwho hs').mono fun r s'' _ hr => ?_)
  match r, hr with
  | .ok rec, ⟨e, he⟩ => exact hreport he (.acquired rec e)
  | .error err, he => exact hreport he (.failed err)

end Contender

/-! ## The law -/

/-- The epochs that `acquire_ownership` hands out, for a prefix that began with
the record `first`. Calls are identified by their thread. -/
structure OwnershipLaw (first : Option (OwnershipRecord × Etag)) (P : engine.Pool) : Prop where
  /-- two calls never return the same epoch -/
  unique : ∀ c c' r r', c ≠ c' →
    (c, .mark (.returned 0 (.acquired (.ok r)))) ∈ P.state.hist →
    (c', .mark (.returned 0 (.acquired (.ok r')))) ∈ P.state.hist → r.epoch ≠ r'.epoch
  /-- a call that begins after another one returned gets a larger epoch -/
  increasing : ∀ c c' r r' later earlier,
    P.state.hist = later ++ (c', .mark (.invoked 0)) :: earlier →
    (c, .mark (.returned 0 (.acquired (.ok r)))) ∈ earlier →
    (c', .mark (.returned 0 (.acquired (.ok r')))) ∈ P.state.hist → r.epoch < r'.epoch
  /-- the stored record is the newest one -/
  stored : P.state.st.lookup .ownership =
    (ownershipRecords first P.state.hist).head?.map fun x => (.ownership x.1, x.2)
  /-- which has the largest epoch -/
  largest : ∀ newest older, ownershipRecords first P.state.hist = newest :: older →
    ∀ x ∈ older, x.1.epoch < newest.1.epoch
  /-- a call returns `Ok` only with a record it stored -/
  acquired : ∀ c r, (c, .mark (.returned 0 (.acquired (.ok r)))) ∈ P.state.hist →
    ∃ e, (c, .stored .ownership (.ownership r) e) ∈ P.state.hist
  /-- a call that stored a record has returned it, or has nothing else to return -/
  granted : ∀ c r e res, (c, .stored .ownership (.ownership r) e) ∈ P.state.hist →
    (c, .mark (.returned 0 (.acquired res))) ∈ P.state.hist → res = .ok r
  /-- a call that returns an error stored nothing -/
  failed : ∀ c err, (c, .mark (.returned 0 (.acquired (.error err)))) ∈ P.state.hist →
    ∀ o e, (c, .stored .ownership o e) ∉ P.state.hist
  /-- a finished call has returned -/
  finished : ∀ j c, P.threads[j]? = some (c, Prog.ret ()) →
    ∃ res, (⟨j, j⟩, .mark (.returned 0 (.acquired res))) ∈ P.state.hist

namespace EpochInv

variable {first : Option (OwnershipRecord × Etag)} {n : Nat} {w : World} {c c' : Who}
  {r r' : OwnershipRecord}

theorem stored_of_ok (h : EpochInv first n w)
    (hm : (c, .mark (.returned 0 (.acquired (.ok r)))) ∈ w.hist) :
    ∃ e, (c, .stored .ownership (.ownership r) e) ∈ w.hist := by
  obtain ⟨e, he⟩ := (h.log c).eq_of_ok (mem_ownEvents.mpr hm)
  exact ⟨e, mem_ownEvents.mp (by simp [he])⟩

theorem grants_epochs (h : EpochInv first n w) :
    (grants w.hist).Pairwise fun a b => b.2.1.epoch < a.2.1.epoch :=
  List.pairwise_map.mp (List.pairwise_append.mp h.epochs).1

/-- Two contenders that were granted different records. -/
theorem epoch_ne (h : EpochInv first n w) (hne : c ≠ c')
    (hm : (c, .mark (.returned 0 (.acquired (.ok r)))) ∈ w.hist)
    (hm' : (c', .mark (.returned 0 (.acquired (.ok r')))) ∈ w.hist) : r.epoch ≠ r'.epoch := by
  obtain ⟨e, he⟩ := h.stored_of_ok hm
  obtain ⟨e', he'⟩ := h.stored_of_ok hm'
  have hdiff : ((c, r, e) : Who × OwnershipRecord × Etag) ≠ (c', r', e') :=
    fun heq => hne (congrArg Prod.fst heq)
  have hpair : (grants w.hist).Pairwise fun a b => a.2.1.epoch ≠ b.2.1.epoch :=
    h.grants_epochs.imp fun hlt => Nat.ne_of_gt hlt
  have : Std.Symm fun a b : Who × OwnershipRecord × Etag => a.2.1.epoch ≠ b.2.1.epoch :=
    ⟨fun _ _ hxy => Ne.symm hxy⟩
  exact hpair.forall (mem_grants.mpr he) (mem_grants.mpr he') hdiff

/-- The grant of a call lies between its beginning and its return. -/
theorem epoch_lt (h : EpochInv first n w) {later earlier : History}
    (hsplit : w.hist = later ++ (c', .mark (.invoked 0)) :: earlier)
    (hm : (c, .mark (.returned 0 (.acquired (.ok r)))) ∈ earlier)
    (hm' : (c', .mark (.returned 0 (.acquired (.ok r')))) ∈ w.hist) : r.epoch < r'.epoch := by
  -- the first call was granted before the second one began
  have hearly : ∃ e, (c, .stored .ownership (.ownership r) e) ∈ earlier := by
    have hall : (c, .mark (.returned 0 (.acquired (.ok r)))) ∈ w.hist := by
      rw [hsplit]
      simp [hm]
    obtain ⟨e, he⟩ := (h.log c).eq_of_ok (mem_ownEvents.mpr hall)
    have hsuf : ownEvents c earlier <:+ ownEvents c w.hist := by
      rw [hsplit, ownEvents_append]
      refine .trans ?_ (List.suffix_append _ _)
      simp only [ownEvents, List.filter_cons]
      split
      · exact List.suffix_cons _ _
      · exact List.suffix_refl _
    have hin := mem_ownEvents.mpr hm
    rw [he] at hsuf
    refine ⟨e, mem_ownEvents.mp ?_⟩
    rcases List.suffix_cons_iff.mp hsuf with heq | hsuf
    · simp [heq]
    · have := hsuf.subset hin
      simp at this
  -- the second one afterwards
  have hlate : ∃ e, (c', .stored .ownership (.ownership r') e) ∈ later := by
    obtain ⟨e, he⟩ := (h.log c').eq_of_ok (mem_ownEvents.mpr hm')
    rw [hsplit, ownEvents_append, ownEvents_cons_self] at he
    refine ⟨e, mem_ownEvents.mp ?_⟩
    match hown : ownEvents c' later with
    | [] => rw [hown] at he; simp at he
    | [x] => rw [hown] at he; simp at he
    | x :: y :: rest =>
      rw [hown] at he
      simp only [List.cons_append, List.cons.injEq] at he
      simp [he.2.1]
  obtain ⟨e, he⟩ := hearly
  obtain ⟨e', he'⟩ := hlate
  have hpair := h.grants_epochs
  rw [hsplit, grants_append, List.pairwise_append] at hpair
  exact hpair.2.2 _ (mem_grants.mpr he') _ (mem_grants.mpr (List.mem_cons_of_mem _ he))

end EpochInv

/-- Ownership epochs are unique and increase: for any number of contenders and
any interleaving of their steps. -/
theorem ownership_epochs (w : World) (first : Option (OwnershipRecord × Etag))
    (sessions : List String) (sched : List (Nat × Choice)) (P : engine.Pool)
    (hhist : w.hist = [])
    (hfirst : w.st.lookup .ownership = first.map fun x => (.ownership x.1, x.2))
    (htag : ∀ x ∈ first, x.2 ≤ w.st.seq)
    (hroom : recordedEpoch first + sessions.length < 2 ^ 64 - 1)
    (hrun : engine.runPool sched ⟨w, contenders sessions⟩ = some P) : OwnershipLaw first P := by
  have hinit : EpochInv first sessions.length w := by
    constructor
    · rw [hhist, hfirst]; cases first <;> rfl
    · rw [hhist]; cases first <;> simp [ownershipRecords, grants]
    · rw [hhist]; simpa [ownershipRecords, grants] using htag
    · rw [hhist]; cases first <;> simp [ownershipRecords, grants]
    · rw [hhist]; cases first <;> simp [ownershipRecords, grants, recordedEpoch]
    · rw [hhist]; exact fun _ => .idle
    · rw [hhist]; exact List.nodup_nil
    · rw [hhist]; simp
  have hpool : (epochRules first sessions.length).PoolSafe
      (fun j s => ∃ r, (⟨j, j⟩, .mark (.returned 0 (.acquired r))) ∈ s.1.hist)
      ⟨w, contenders sessions⟩ () := by
    refine ⟨hinit, fun j who p hj => ?_⟩
    obtain ⟨s, hlt, rfl, rfl⟩ := getElem?_contenders hj
    exact contender_safe hroom ⟨j, hlt, rfl⟩ (by rw [hhist]; rfl)
  obtain ⟨_, hsafe, -, hdone⟩ := (epochRules first sessions.length).runPool_safe
    (epochRules_compatible _ _) sched (contenders_distinct sessions) hpool (fun _ _ => trivial)
    hrun (.of_all (fun _ _ _ _ _ => trivial) _ _)
  have h : EpochInv first sessions.length P.state := hsafe.1
  constructor
  · exact fun c c' r r' hne hm hm' => h.epoch_ne hne hm hm'
  · exact fun c c' r r' later earlier hsplit hm hm' => h.epoch_lt hsplit hm hm'
  · exact h.cur
  · intro newest older heq x hx
    have hepochs := h.epochs
    rw [heq] at hepochs
    exact (List.pairwise_cons.mp hepochs).1 x hx
  · exact fun c r hm => h.stored_of_ok hm
  · intro c r e res hst hm
    have hst := mem_ownEvents.mpr hst
    have hm := mem_ownEvents.mpr hm
    cases res with
    | error err => rw [(h.log c).eq_of_error hm] at hst; simp at hst
    | ok r' =>
      obtain ⟨e', he⟩ := (h.log c).eq_of_ok hm
      rw [he] at hst
      simp at hst
      rw [hst.1]
  · intro c err hm o e hst
    have hst := mem_ownEvents.mpr hst
    rw [(h.log c).eq_of_error (mem_ownEvents.mpr hm)] at hst
    simp at hst
  · exact hdone

/-- Two contenders that both read the record of epoch 7: the second write conflicts. -/
theorem ownership_epochs_contended : ∃ P : engine.Pool,
    engine.runPool ([0, 1, 0, 1, 1, 0, 0, 1].map fun j => (j, ⟨none, true⟩))
      ⟨{ World.start with st := Storage.empty.insert .ownership (.ownership ⟨7, "old"⟩) },
        contenders ["a", "b"]⟩ = some P ∧ OwnershipLaw (some (⟨7, "old"⟩, 1)) P := by
  obtain ⟨P, hP⟩ := Option.isSome_iff_exists.mp (show (engine.runPool
    ([0, 1, 0, 1, 1, 0, 0, 1].map fun j => (j, ⟨none, true⟩))
      ⟨{ World.start with st := Storage.empty.insert .ownership (.ownership ⟨7, "old"⟩) },
        contenders ["a", "b"]⟩).isSome = true by decide)
  exact ⟨P, hP, ownership_epochs _ _ _ _ P rfl (by simp [Storage.empty]) (by simp) (by decide) hP⟩

end OxKv
