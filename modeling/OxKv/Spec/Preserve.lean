import OxKv.Spec.PreserveStore

/-!
The effects that leave the manifest alone keep the invariant.
-/

namespace OxKv

variable {T : Track} {M : Mode} {w w' : World} {g g' : Ghost} {who : Who}

/-! ## Histories that only get events of no consequence -/

/-- Nothing was written to a MemTable, pushed to a queue or returned to a caller. -/
structure HistQuiet (h h' : History) : Prop where
  suffix : h <:+ h'
  live : ∀ b i, liveFrom b i h' = liveFrom b i h
  pushed : ∀ {who pw}, (who, What.pushed pw) ∈ h' → (who, What.pushed pw) ∈ h
  wrote : ∀ {who ops}, (who, What.wrote ops) ∈ h' → (who, What.wrote ops) ∈ h
  returned : ∀ h₀ who n r, ((who, What.mark (.returned n r)) :: h₀) <:+ h' →
    ((who, What.mark (.returned n r)) :: h₀) <:+ h

theorem HistQuiet.refl (h : History) : HistQuiet h h :=
  ⟨List.suffix_refl h, fun _ _ => rfl, id, id, fun _ _ _ _ => id⟩

theorem HistQuiet.cons {e : What} (h : History) (hw : ∀ ops, e ≠ .wrote ops)
    (hp : ∀ pw, e ≠ .pushed pw) (hr : ∀ n r, e ≠ .mark (.returned n r)) :
    HistQuiet h ((who, e) :: h) where
  suffix := List.suffix_cons _ _
  live b i := liveFrom_log hw h
  pushed hm := by
    rcases List.mem_cons.mp hm with heq | hm
    · cases heq; exact absurd rfl (hp _)
    · exact hm
  wrote hm := by
    rcases List.mem_cons.mp hm with heq | hm
    · cases heq; exact absurd rfl (hw _)
    · exact hm
  returned h0 who' n r hs := by
    rcases List.suffix_cons_iff.mp hs with heq | hs
    · cases heq; exact absurd rfl (hr _ _)
    · exact hs

/-! ## Changes inside one handle -/

structure HandlesKept (w w' : World) : Prop where
  epoch : ∀ j, (w'.inst j).epoch = (w.inst j).epoch
  mem : ∀ j, (w'.inst j).mem = (w.inst j).mem
  seq : ∀ j, (w.inst j).sstSeq ≤ (w'.inst j).sstSeq
  gate : ∀ j, (w'.inst j).gate = none → (w.inst j).gate = none
  pending : ∀ j, (w'.inst j).pending = (w.inst j).pending

/-- Nothing that the other parts of the invariant depend on changes. -/
theorem Inv.still (h : Inv T w g) (hq : HistQuiet w.hist w'.hist) (hst : w'.st = w.st)
    (hS : stores w'.hist = stores w.hist) (hk : HandlesKept w w') (hans : w'.answers = w.answers)
    (hctr : w'.pendingCtr = w.pendingCtr)
    (hhandle : HandleInv T w.st (stores w.hist) w'.inst) : Inv T w' g := by
  have harch : w'.archive = w.archive := by
    unfold World.archive
    rw [hS]
  have hman : w'.manifest = w.manifest := manifest_eq (by rw [hst])
  have hkeep : ∀ j, KeepsLive w g w' g j := fun j =>
    { grows := by rw [harch]; exact .refl _
      sst := by rw [hman]
      hist := hq.suffix
      live := fun b => hq.live b j
      epoch := hk.epoch j
      owns := fun ho => ho.of_inst hst hS (hk.epoch j)
      mem := hk.mem j
      seq := hk.seq j
      base := rfl
      win := rfl
      dur := rfl
      gate := hk.gate j
      flight := rfl }
  constructor
  · rw [hst, hS]
    exact h.store
  · rw [hst, hS]
    exact hhandle
  · exact ⟨by rw [hman, hst]; exact h.present.ssts, by rw [hman, hst]; exact h.present.wals⟩
  · exact fun i hi => (h.live i hi).keep h.store (hkeep i)
  · exact h.durable.keep h.store (hkeep 0).grows (by rw [hman]) (by rw [hman]) rfl
  · exact h.queue.keep hq.suffix hq.pushed hctr hans hk.pending
      (fun i _ hg hn => hg (hk.gate i hn)) rfl (fun _ _ _ _ => .rfl)
  · exact h.lin.keep hq.suffix (fun hm => by rw [hS] at hm; exact hm) (hkeep 0).grows rfl
      (fun _ => id)
  · exact h.sizes
  · exact h.replies.keep (List.prefix_refl _) hq.returned
  · exact fun hm => h.wrote (hq.wrote hm)
  · exact h.idle

theorem Inv.look {e : What} (h : Inv M.toTrack w g) (he : e = .polled ∨ e = .copied) :
    Inv M.toTrack (w.log who e) g := by
  have hq : HistQuiet w.hist ((who, e) :: w.hist) := by
    rcases he with rfl | rfl <;> exact HistQuiet.cons _ (by simp) (by simp) (by simp)
  have hS : stores ((who, e) :: w.hist) = stores w.hist := by
    rcases he with rfl | rfl <;> rfl
  exact h.still hq rfl hS ⟨fun _ => rfl, fun _ => rfl, fun _ => le_refl _, fun _ => id,
    fun _ => rfl⟩ rfl rfl h.handle

variable {y : Inst} {i : Nat}

/-- The part of the invariant about handles when one handle changes. If it wrote data objects, it
keeps its epoch and does not take its numbers back. -/
theorem HandleInv.setInst (h : HandleInv T w.st (stores w.hist) w.inst)
    (hepoch : y.epoch ≤ w.st.topEpoch)
    (hown : ∀ {who p o t e}, (who, p, o, t) ∈ stores w.hist → who.inst = i → p.epoch? = some e →
      y.epoch = (w.inst i).epoch ∧ (w.inst i).walSeq ≤ y.walSeq ∧ (w.inst i).sstSeq ≤ y.sstSeq)
    (hcache : ∀ m e, y.cache = some (m, e) → KnownManifest (stores w.hist) m e)
    (hsstCache : ∀ p f, y.sstCache p = some f → archived (stores w.hist) p = some (.sst f))
    (hmem : ∀ op ∈ y.mem.toList, T.OkOp op) (hbuf : ∀ op ∈ y.walBuffer, T.OkOp op)
    (hbuffer : ¬ T.staging → y.walBuffer = []) :
    HandleInv T w.st (stores w.hist) (w.setInst i y).inst := by
  have hkept : ∀ {who p o t e}, (who, p, o, t) ∈ stores w.hist → p.epoch? = some e →
      ((w.setInst i y).inst who.inst).epoch = (w.inst who.inst).epoch ∧
      (w.inst who.inst).walSeq ≤ ((w.setInst i y).inst who.inst).walSeq ∧
      (w.inst who.inst).sstSeq ≤ ((w.setInst i y).inst who.inst).sstSeq := by
    intro who p o t e hm he
    by_cases hi : who.inst = i
    · rw [hi, World.setInst_inst_self]
      exact hown hm hi he
    · rw [World.setInst_inst_ne _ _ _ hi]
      exact ⟨rfl, le_refl _, le_refl _⟩
  refine ⟨h.ownerTop, h.ownerInj, ?_, ?_, ?_, ?_, ?_, ?_, ?_, ?_, ?_⟩
  · exact World.forall_setInst (fun x => x.epoch ≤ w.st.topEpoch) hepoch h.epochLe
  · intro who p o t e hm he
    exact ⟨(hkept hm he).1.trans (h.storedBy hm he).1, (h.storedBy hm he).2⟩
  · intro who e n o t hm
    exact lt_of_lt_of_le (h.walNum hm) (hkept hm rfl).2.1
  · intro who e l n o t hm
    exact lt_of_lt_of_le (h.sstNum hm) (hkept hm rfl).2.2
  · intro j m e
    exact World.forall_setInst (fun x => x.cache = some (m, e) → KnownManifest (stores w.hist) m e)
      (hcache m e) (fun _ => h.cache) j
  · intro j p f
    exact World.forall_setInst
      (fun x => x.sstCache p = some f → archived (stores w.hist) p = some (.sst f)) (hsstCache p f)
      (fun _ => h.sstCache) j
  · exact World.forall_setInst (fun x => ∀ op ∈ x.mem.toList, T.OkOp op) hmem h.memOk
  · exact World.forall_setInst (fun x => ∀ op ∈ x.walBuffer, T.OkOp op) hbuf h.bufferOk
  · exact fun hst => World.forall_setInst (fun x => x.walBuffer = []) (hbuffer hst) (h.buffer hst)

theorem HandlesKept.setInst (hepoch : y.epoch = (w.inst i).epoch) (hmem : y.mem = (w.inst i).mem)
    (hseq : (w.inst i).sstSeq ≤ y.sstSeq) (hgate : y.gate = none → (w.inst i).gate = none)
    (hpending : y.pending = (w.inst i).pending) : HandlesKept w (w.setInst i y) := by
  constructor <;> intro j <;> by_cases hj : j = i
  all_goals first
    | (subst hj; rw [World.setInst_inst_self]; assumption)
    | (rw [World.setInst_inst_ne _ _ _ hj])
  exact id

theorem Inv.tune (h : Inv M.toTrack w g) (hy : Tuned M who w g y) :
    Inv M.toTrack (w.setInst who.inst y) g :=
  h.still (HistQuiet.refl _) rfl rfl
    (HandlesKept.setInst hy.epoch hy.mem hy.sstSeq (fun hn => hy.gate ▸ hn) hy.pending) rfl rfl
    (h.handle.setInst (hy.epoch ▸ h.handle.epochLe _)
      (fun _ _ _ => ⟨hy.epoch, hy.walSeq, hy.sstSeq⟩) hy.cache hy.sstCache
      (by rw [hy.mem]; exact h.handle.memOk _) hy.bufferOk hy.buffer)

theorem HandleInv.setFields {walSeq sstSeq : Nat} {gate : Option Nat}
    {pending : List PendingWrite} {mem : MemMap} (h : HandleInv T w.st (stores w.hist) w.inst)
    (hwal : (w.inst i).walSeq ≤ walSeq) (hsst : (w.inst i).sstSeq ≤ sstSeq)
    (hmem : ∀ op ∈ mem.toList, T.OkOp op) :
    HandleInv T w.st (stores w.hist) (w.setInst i { w.inst i with
      mem := mem, walSeq := walSeq, sstSeq := sstSeq, gate := gate, pending := pending }).inst :=
  h.setInst (h.epochLe i) (fun _ _ _ => ⟨rfl, hwal, hsst⟩) (fun _ _ => h.cache)
    (fun _ _ => h.sstCache) hmem (h.bufferOk i) (fun hs => h.buffer hs i)

theorem Inv.lock (h : Inv M.toTrack w g) :
    Inv M.toTrack (w.setInst who.inst { w.inst who.inst with gate := some who.thread }) g :=
  h.still (HistQuiet.refl _) rfl rfl
    (HandlesKept.setInst rfl rfl (le_refl _) (fun hn => nomatch hn) rfl) rfl rfl
    (h.handle.setFields (le_refl _) (le_refl _) (h.handle.memOk _))

/-- Storage and the listed files stay: what is left to show concerns handles,
contents and queue. -/
theorem Inv.sameStore (h : Inv T w g) (hsuf : w.hist <:+ w'.hist) (hst : w'.st = w.st)
    (hS : stores w'.hist = stores w.hist) (hlin : g'.lin = g.lin) (horigin : g'.origin = g.origin)
    (hslot : ∀ pw : PendingWrite, ((∃ i, g.slot pw.id = .opened i pw) ∨
        ∃ r, g.slot pw.id = .settled pw r) →
      (∃ i, g'.slot pw.id = .opened i pw) ∨ ∃ r, g'.slot pw.id = .settled pw r)
    (hhandle : HandleInv T w.st (stores w.hist) w'.inst)
    (hlive : ∀ i, g'.ready i → LiveInv T w' g' i) (hqueue : QueueInv T w' g')
    (hreplies : ReplyInv T w' g')
    (hwrote : ∀ {who ops}, (who, .wrote ops) ∈ w'.hist → g'.ready who.inst)
    (hidle : ∀ i, ¬ g'.ready i → g'.win i = [] ∧ g'.flight i = none) : Inv T w' g' := by
  have harch : w'.archive = w.archive := by
    unfold World.archive
    rw [hS]
  have hman : w'.manifest = w.manifest := manifest_eq (by rw [hst])
  have hdur : g'.dur = g.dur := by
    unfold Ghost.dur
    rw [hlin, horigin]
  have hgrows : Grows w.archive w'.archive := by
    rw [harch]
    exact .refl _
  constructor
  · rw [hst, hS]
    exact h.store
  · rw [hst, hS]
    exact hhandle
  · exact ⟨by rw [hman, hst]; exact h.present.ssts, by rw [hman, hst]; exact h.present.wals⟩
  · exact hlive
  · exact h.durable.keep h.store hgrows (by rw [hman]) (by rw [hman]) hdur
  · exact hqueue
  · exact h.lin.keep hsuf (fun hm => by rw [hS] at hm; exact hm) hgrows hlin hslot
  · rw [hlin]
    exact h.sizes
  · exact hreplies
  · exact hwrote
  · exact hidle

/-- A change of handle `i` that keeps epoch, MemTable and file counter keeps all
contents. -/
theorem keepsHits_of_inst {j : Nat} (hst : w'.st = w.st) (hsuf : w.hist <:+ w'.hist)
    (hS : stores w'.hist = stores w.hist)
    (hlive : ∀ b, liveFrom b j w'.hist = liveFrom b j w.hist)
    (hepoch : (w'.inst j).epoch = (w.inst j).epoch) (hmem : (w'.inst j).mem = (w.inst j).mem)
    (hseq : (w.inst j).sstSeq ≤ (w'.inst j).sstSeq) (hbase : g'.base j = g.base j)
    (hwin : g'.win j = g.win j) (hdur : g'.dur = g.dur) : KeepsHits w g w' g' j where
  grows := by
    unfold World.archive
    rw [hS]
    exact .refl _
  sst := congrArg Manifest.sst (manifest_eq (by rw [hst]))
  hist := hsuf
  live := hlive
  epoch := hepoch
  owns ho := ho.of_inst hst hS hepoch
  mem := hmem
  seq := hseq
  base := hbase
  win := hwin
  dur := hdur

/-- A change inside handle `i` leaves the contents of the others alone. -/
theorem keepsLive_other {j : Nat} (hj : j ≠ i) (hinst : w'.inst = (w.setInst i y).inst)
    (hst : w'.st = w.st) (hsuf : w.hist <:+ w'.hist) (hS : stores w'.hist = stores w.hist)
    (hlive : ∀ b, liveFrom b j w'.hist = liveFrom b j w.hist) (hbase : g'.base j = g.base j)
    (hwin : g'.win j = g.win j) (hflight : g'.flight j = g.flight j) (hdur : g'.dur = g.dur) :
    KeepsLive w g w' g' j := by
  have hsame : w'.inst j = w.inst j := by
    rw [hinst, World.setInst_inst_ne _ _ _ hj]
  exact ⟨keepsHits_of_inst hst hsuf hS hlive (by rw [hsame]) (by rw [hsame]) (by rw [hsame]) hbase
    hwin hdur, fun hg => by rw [hsame] at hg; exact hg, hflight⟩

theorem QueueInv.keepInst (hq : QueueInv T w g) (hinst : w'.inst = (w.setInst i y).inst)
    (hh : w.hist <:+ w'.hist)
    (hpush : ∀ {who pw}, (who, What.pushed pw) ∈ w'.hist → (who, What.pushed pw) ∈ w.hist)
    (hctr : w'.pendingCtr = w.pendingCtr) (hans : w'.answers = w.answers)
    (hpending : y.pending = (w.inst i).pending)
    (hgate : (∃ id pw, g.slot id = .opened i pw) → (w.inst i).gate ≠ none → y.gate ≠ none)
    (hslot : g'.slot = g.slot) (hlin : g'.lin = g.lin) : QueueInv T w' g' := by
  refine hq.keep hh hpush hctr hans ?_ ?_ hslot (fun _ _ _ _ => by rw [hlin])
  · rw [hinst]
    exact World.setInst_field Inst.pending hpending
  · intro j hopen hg
    rw [hinst]
    by_cases hj : j = i
    · subst hj
      rw [World.setInst_inst_self]
      exact hgate hopen hg
    · rw [World.setInst_inst_ne _ _ _ hj]
      exact hg

theorem Inv.unlock (h : Inv M.toTrack w g) (hwin : g.win who.inst = [])
    (hopen : ∀ id pw, g.slot id ≠ .opened who.inst pw) :
    Inv M.toTrack ((w.setInst who.inst { w.inst who.inst with gate := none }).log who .unlocked)
      { g with flight := Function.update g.flight who.inst none } := by
  have hq : HistQuiet w.hist ((who, What.unlocked) :: w.hist) :=
    HistQuiet.cons _ (by simp) (by simp) (by simp)
  refine h.sameStore hq.suffix rfl rfl rfl rfl (fun _ => id)
    (h.handle.setFields (le_refl _) (le_refl _) (h.handle.memOk _))
    ?_ ?_ (h.replies.keep (List.prefix_refl _) hq.returned) (fun hm => h.wrote (hq.wrote hm))
    (fun i hi => ⟨(h.idle i hi).1, by simp [Function.update_apply, (h.idle i hi).2]⟩)
  · intro j hj
    have hl := h.live j hj
    by_cases hji : j = who.inst
    · subst hji
      refine hl.keepHits h.store (keepsHits_of_inst rfl hq.suffix rfl (fun b => hq.live b _)
        (by simp) (by simp) (by simp) rfl rfl rfl) ?_ (fun _ => ⟨hwin, by simp⟩)
      intro snap n hn
      simp at hn
    · exact hl.keep h.store (keepsLive_other hji rfl rfl hq.suffix rfl (fun b => hq.live b j) rfl rfl
        (by simp [hji]) rfl)
  · exact h.queue.keepInst rfl hq.suffix hq.pushed rfl rfl rfl
      (fun ⟨id, pw, hs⟩ => absurd hs (hopen id pw)) rfl rfl

/-! ## Objects other than the manifest -/

theorem histQuiet_write (w : World) (who : Who) (p : ObjectPath) (o : Obj) :
    HistQuiet w.hist (w.write who p o).hist :=
  HistQuiet.cons _ (by simp) (by simp) (by simp)

variable {p : ObjectPath} {o : Obj}

/-- What the manifest lists is still there after any write. -/
theorem PresentInv.lookup_write {q : ObjectPath} (h : ∃ y, w.st.lookup q = some y) :
    ∃ y, (w.write who p o).st.lookup q = some y := by
  by_cases hq : q = p
  · subst hq
    exact ⟨_, OxKv.lookup_write ..⟩
  · rw [lookup_write_ne hq]
    exact h

theorem Inv.write (h : Inv M.toTrack w g) (hw : Writable M w who p o) (hp : p ≠ .manifest)
    (howns : ∀ j, Owns (w.write who p o) j → Owns w j)
    (hhandle : HandleInv M.toTrack (w.write who p o).st (stores (w.write who p o).hist) w.inst) :
    Inv M.toTrack (w.write who p o) g := by
  have hq := histQuiet_write w who p o
  have hman := manifest_write_ne hp w who o
  have hkeep : ∀ j, KeepsLive w g (w.write who p o) g j := fun j =>
    { grows := hw.grows
      sst := by rw [hman]
      hist := hq.suffix
      live := fun b => hq.live b j
      epoch := rfl
      owns := howns j
      mem := rfl
      seq := le_refl _
      base := rfl
      win := rfl
      dur := rfl
      gate := id
      flight := rfl }
  constructor
  · exact h.store.write hw
  · exact hhandle
  · constructor
    · rw [hman]
      exact fun x hx => PresentInv.lookup_write (h.present.ssts x hx)
    · rw [hman]
      exact fun x hx => PresentInv.lookup_write (h.present.wals x hx)
  · exact fun i hi => (h.live i hi).keep h.store (hkeep i)
  · exact h.durable.keep h.store hw.grows (by rw [hman]) (by rw [hman]) rfl
  · exact h.queue.keep hq.suffix hq.pushed rfl rfl (fun _ => rfl) (fun _ _ => id) rfl
      (fun _ _ _ _ => .rfl)
  · refine h.lin.keep hq.suffix (fun hm => ?_) hw.grows rfl (fun _ => id)
    rcases List.mem_cons.mp hm with heq | hm
    · cases heq
      exact absurd rfl hp
    · exact hm
  · exact h.sizes
  · exact h.replies.keep (List.prefix_refl _) hq.returned
  · exact fun hm => h.wrote (hq.wrote hm)
  · exact h.idle

/-- Ownership only changes with the ownership record. -/
theorem owns_write (hp : p ≠ .ownership) {j : Nat} (h : Owns (w.write who p o) j) : Owns w j := by
  refine owns_of_same (fun x hx hown => ?_) (topEpoch_eq (lookup_write_ne (Ne.symm hp) w who o))
    rfl h
  rcases List.mem_cons.mp hx with rfl | hx
  · exact absurd hown hp
  · exact hx

variable (h : Inv M.toTrack w g)

include h

theorem Inv.create (hwriter : Writer w who.inst) (hnew : w.archive p = none)
    (hobj : NewObject M who w p o) : Inv M.toTrack (w.write who p o) g := by
  have hne : p ≠ .manifest ∧ p ≠ .ownership := by
    cases hobj <;> exact ⟨nofun, nofun⟩
  have hw : Writable M w who p o :=
    ⟨fun _ => ⟨hnew, hobj⟩, fun hm => absurd hm hne.1, fun ho => absurd ho hne.2⟩
  exact h.write hw hne.1 (fun _ => owns_write hne.2) (h.handle.write hw hne.2 fun _ => hwriter)

theorem Inv.canary : Inv M.toTrack (w.write who .canary o) g := by
  have hw : Writable M w who .canary o := ⟨nofun, nofun, nofun⟩
  have hne : ObjectPath.canary ≠ .ownership := nofun
  exact h.write hw nofun (fun _ => owns_write hne) (h.handle.write hw hne nofun)

/-- A takeover: nobody who had a handle owns the prefix any more. -/
theorem Inv.acquire {r : OwnershipRecord} (hr : r.epoch = w.st.topEpoch + 1) :
    Inv M.toTrack (w.write who .ownership (.ownership r)) g := by
  have hw : Writable M w who .ownership (.ownership r) := ⟨nofun, nofun, fun _ => ⟨r, rfl⟩⟩
  refine h.write hw nofun (fun j ho => ?_) (h.handle.acquire hr)
  have htop := ho.2
  rw [topEpoch_write_owner, hr] at htop
  have hle : (w.inst j).epoch ≤ w.st.topEpoch := h.handle.epochLe j
  have heq : w.st.topEpoch + 1 = (w.inst j).epoch := htop
  omega

/-- Deleting an object that the manifest does not list. -/
theorem Inv.delete (hman : p ≠ .manifest) (hown : p ≠ .ownership)
    (hblob : ∀ e hash, p ≠ .blob e hash) (hsst : ∀ x ∈ w.manifest.sst, x.id ≠ p)
    (hwal : p ∉ w.manifest.wal) : Inv M.toTrack { w with st := w.st.delete p } g := by
  have hmeq : ({ w with st := w.st.delete p } : World).manifest = w.manifest :=
    manifest_eq (Storage.lookup_delete_ne _ (Ne.symm hman))
  have hkeep : ∀ j, KeepsLive w g { w with st := w.st.delete p } g j := fun j =>
    { grows := .refl _
      sst := by rw [hmeq]
      hist := List.suffix_refl _
      live := fun _ => rfl
      epoch := rfl
      owns := owns_of_same (fun _ hx _ => hx)
        (topEpoch_eq (Storage.lookup_delete_ne _ (Ne.symm hown))) rfl
      mem := rfl
      seq := le_refl _
      base := rfl
      win := rfl
      dur := rfl
      gate := id
      flight := rfl }
  constructor
  · exact h.store.delete hblob
  · exact h.handle.delete hown
  · constructor
    · rw [hmeq]
      intro x hx
      obtain ⟨y, hy⟩ := h.present.ssts x hx
      exact ⟨y, by rw [← hy]; exact Storage.lookup_delete_ne _ (hsst x hx)⟩
    · rw [hmeq]
      intro q hq
      obtain ⟨y, hy⟩ := h.present.wals q hq
      have hne : q ≠ p := by
        rintro rfl
        exact hwal hq
      exact ⟨y, by rw [← hy]; exact Storage.lookup_delete_ne _ hne⟩
  · exact fun i hi => (h.live i hi).keep h.store (hkeep i)
  · exact h.durable.keep h.store (.refl _) (by rw [hmeq]) (by rw [hmeq]) rfl
  · exact h.queue.keep (List.suffix_refl _) id rfl rfl (fun _ => rfl) (fun _ _ => id) rfl
      (fun _ _ _ _ => .rfl)
  · exact h.lin.keep (List.suffix_refl _) id (.refl _) rfl (fun _ => id)
  · exact h.sizes
  · exact h.replies.keep (List.prefix_refl _) (fun _ _ _ _ => id)
  · exact h.wrote
  · exact h.idle

theorem Inv.uncanary : Inv M.toTrack { w with st := w.st.delete .canary } g := by
  refine h.delete nofun nofun nofun (fun x hx hid => ?_) (fun hc => ?_)
  · obtain ⟨f, hf⟩ := h.store.listOk.ssts x hx
    rw [hid] at hf
    exact absurd (archived_isData hf) (by simp [ObjectPath.isData])
  · obtain ⟨e, n, b, he, -⟩ := h.store.listOk.wals _ hc
    cases he

theorem Inv.erase (hp : Erasable M who w p) : Inv M.toTrack { w with st := w.st.delete p } g := by
  cases hp with
  | wal e n hlisted _ =>
    refine h.delete nofun nofun nofun (fun x hx hid => ?_) hlisted
    obtain ⟨f, hf⟩ := h.store.listOk.ssts x hx
    rw [hid] at hf
    obtain ⟨b, hb⟩ := h.store.walObj hf
    cases hb
  | sst e l n _ hlisted =>
    refine h.delete nofun nofun nofun hlisted (fun hc => ?_)
    obtain ⟨e', n', b, he, -⟩ := h.store.listOk.wals _ hc
    cases he

end OxKv
