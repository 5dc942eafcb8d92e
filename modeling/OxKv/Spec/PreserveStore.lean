import OxKv.Spec.Facts

/-!
Writing and deleting objects keeps the part of the invariant about stored objects
and about the instances that wrote them.
-/

namespace OxKv

variable {M : Mode} {w : World} {who : Who} {p : ObjectPath} {o : Obj}

/-- What a written object has to satisfy. -/
structure Writable (M : Mode) (w : World) (who : Who) (p : ObjectPath) (o : Obj) : Prop where
  data : p.isData = true → w.archive p = none ∧ NewObject M who w p o
  manifest : p = .manifest → ∃ m, o = .manifest m ∧ ListOk M.cr w.archive m
  owner : p = .ownership → ∃ r, o = .ownership r

theorem Writable.grows (h : Writable M w who p o) :
    Grows w.archive (w.write who p o).archive := by
  cases hd : p.isData with
  | true => exact grows_write (h.data hd).1 o
  | false =>
    rw [archive_write_other hd]
    exact .refl _

theorem Track.StoredOp.mono {T : Track} {ob ob' : Objects} {op : Op} (h : T.StoredOp ob op)
    (hg : Grows ob ob') : T.StoredOp ob' op :=
  ⟨fun hs raw hr => (h.1 hs raw hr).imp fun _ hv => ⟨hv.1, resolve_mono hg hv.2⟩, h.2⟩

/-- The object under a data path after a write: the new one or the old one. -/
theorem archive_write_cases {q : ObjectPath} {o' : Obj}
    (h : (w.write who p o).archive q = some o') :
    (p = q ∧ q.isData = true ∧ o' = o) ∨ w.archive q = some o' := by
  rw [archive_write] at h
  split at h
  · rename_i hq
    cases h
    exact .inl ⟨hq.1, hq.2, rfl⟩
  · exact .inr h

theorem StoreInv.write (h : StoreInv M.toTrack w.st (stores w.hist))
    (hw : Writable M w who p o) :
    StoreInv M.toTrack (w.write who p o).st (stores (w.write who p o).hist) := by
  have hg := hw.grows
  have hseq : (w.write who p o).st.seq = w.st.seq + 1 := rfl
  have hcases : ∀ {x}, x ∈ stores (w.write who p o).hist →
      x = (who, p, o, w.st.seq + 1) ∨ x ∈ stores w.hist := fun hx => List.mem_cons.mp hx
  refine ⟨?_, ?_, ?_, ?_, ?_, ?_, ?_, ?_, ?_, ?_, ?_, ?_, ?_⟩
  · -- held
    intro q o' e hl
    by_cases hq : q = p
    · subst hq
      rw [lookup_write] at hl
      cases hl
      exact ⟨who, List.mem_cons_self ..⟩
    · rw [lookup_write_ne hq] at hl
      exact (h.held hl).imp fun _ hm => List.mem_cons_of_mem _ hm
  · -- tag
    intro who' q o' e hm
    rw [hseq]
    rcases hcases hm with heq | hm
    · cases heq
      exact ⟨Nat.succ_pos _, le_refl _⟩
    · exact ⟨(h.tag hm).1, Nat.le_succ_of_le (h.tag hm).2⟩
  · -- tagInj
    intro who1 who2 p1 p2 o1 o2 e h1 h2
    rcases hcases h1 with heq1 | h1 <;> rcases hcases h2 with heq2 | h2
    · cases heq1; cases heq2; exact ⟨rfl, rfl, rfl⟩
    · cases heq1
      exact absurd (h.tag h2).2 (Nat.not_succ_le_self _)
    · cases heq2
      exact absurd (h.tag h1).2 (Nat.not_succ_le_self _)
    · exact h.tagInj h1 h2
  · -- data
    intro who' q o' e hd hm
    rcases hcases hm with heq | hm
    · cases heq
      exact archive_write_self hd w who o
    · exact hg _ _ (h.data hd hm)
  · -- manifestObj
    intro who' o' e hm
    rcases hcases hm with heq | hm
    · cases heq
      exact (hw.manifest rfl).imp fun _ hm => hm.1
    · exact h.manifestObj hm
  · -- ownerObj
    intro who' o' e hm
    rcases hcases hm with heq | hm
    · cases heq
      exact hw.owner rfl
    · exact h.ownerObj hm
  · -- sstObj
    intro e l n o' ho
    rcases archive_write_cases ho with ⟨rfl, hd, rfl⟩ | ho
    · cases (hw.data hd).2 with
      | sst _ _ f m _ hf _ => exact ⟨f, m, rfl, hf⟩
    · exact h.sstObj ho
  · -- walObj
    intro e n o' ho
    rcases archive_write_cases ho with ⟨rfl, hd, rfl⟩ | ho
    · cases (hw.data hd).2 with
      | wal _ b _ _ => exact ⟨b, rfl⟩
    · exact h.walObj ho
  · -- blobObj
    intro e hash o' ho
    rcases archive_write_cases ho with ⟨rfl, hd, rfl⟩ | _
    · cases (hw.data hd).2 with
      | blob _ b _ => exact ⟨b, _, rfl, lookup_write ..⟩
    · rename_i hold
      obtain ⟨b, t, hb, hl⟩ := h.blobObj hold
      refine ⟨b, t, hb, ?_⟩
      rw [lookup_write_ne]
      · exact hl
      · rintro rfl
        cases (hw.data rfl).1.symm.trans hold
  · -- blobVal
    intro hs e hash b ho
    rcases archive_write_cases ho with ⟨rfl, hd, rfl⟩ | ho
    · cases (hw.data hd).2 with
      | blob _ _ hb => exact hb hs
    · exact h.blobVal hs ho
  · -- sstVal
    intro q f ho op hop
    rcases archive_write_cases ho with ⟨rfl, hd, rfl⟩ | ho
    · cases (hw.data hd).2 with
      | sst _ _ _ m _ hf hops =>
        rw [hf.rows_eq] at hop
        exact (hops op hop).mono hg
    · exact (h.sstVal ho op hop).mono hg
  · -- walVal
    intro e n op hop
    unfold walOps at hop
    split at hop
    · rename_i b ho
      rcases archive_write_cases ho with ⟨rfl, hd, rfl⟩ | ho
      · cases (hw.data hd).2 with
        | wal _ _ _ hops => exact hops op hop
      · refine h.walVal (e := e) (n := n) op ?_
        simp only [walOps]
        rw [show archived (stores w.hist) (.wal e n) = some (.bytes b) from ho]
        exact hop
    · cases hop
  · -- lists
    intro who' m e hm
    rcases hcases hm with heq | hm
    · cases heq
      obtain ⟨m', heq, hlist⟩ := hw.manifest rfl
      cases heq
      exact hlist.mono hg
    · exact (h.lists hm).mono hg

theorem StoreInv.delete (h : StoreInv M.toTrack w.st (stores w.hist))
    (hp : ∀ e hash, p ≠ .blob e hash) :
    StoreInv M.toTrack (w.st.delete p) (stores w.hist) := by
  refine ⟨?_, h.tag, h.tagInj, h.data, h.manifestObj, h.ownerObj, h.sstObj, h.walObj, ?_,
    h.blobVal, h.sstVal, h.walVal, h.lists⟩
  · intro q o e hl
    by_cases hq : q = p
    · subst hq
      rw [Storage.lookup_delete] at hl
      cases hl
    · rw [Storage.lookup_delete_ne _ hq] at hl
      exact h.held hl
  · intro e hash o ho
    obtain ⟨b, t, hb, hl⟩ := h.blobObj ho
    exact ⟨b, t, hb, by rw [Storage.lookup_delete_ne _ (Ne.symm (hp e hash))]; exact hl⟩

/-! ## Instances -/

theorem OwnerOf.cons {S : Stores} {x : Who × ObjectPath × Obj × Etag} {e i : Nat}
    (h : OwnerOf S e i) : OwnerOf (x :: S) e i := by
  obtain ⟨who, s, t, hi, hm⟩ := h
  exact ⟨who, s, t, hi, List.mem_cons_of_mem _ hm⟩

theorem KnownManifest.cons {S : Stores} {x : Who × ObjectPath × Obj × Etag} {m : Manifest}
    {e : Etag} (h : KnownManifest S m e) : KnownManifest (x :: S) m e :=
  h.imp id fun ⟨who, hm⟩ => ⟨who, List.mem_cons_of_mem _ hm⟩

theorem HandleInv.write (h : HandleInv M.toTrack w.st (stores w.hist) w.inst)
    (hw : Writable M w who p o) (hp : p ≠ .ownership)
    (hwriter : p.isData = true → Writer w who.inst) :
    HandleInv M.toTrack (w.write who p o).st (stores (w.write who p o).hist)
      (w.write who p o).inst := by
  have htop : (w.write who p o).st.topEpoch = w.st.topEpoch :=
    topEpoch_eq (lookup_write_ne (Ne.symm hp) w who o)
  have hcases : ∀ {x}, x ∈ stores (w.write who p o).hist →
      x = (who, p, o, w.st.seq + 1) ∨ x ∈ stores w.hist := fun hx => List.mem_cons.mp hx
  have hold : ∀ {x : Who × ObjectPath × Obj × Etag}, x ∈ stores (w.write who p o).hist →
      x.2.1 = .ownership → x ∈ stores w.hist := by
    intro x hx hown
    rcases hcases hx with rfl | hx
    · exact absurd hown hp
    · exact hx
  refine ⟨?_, ?_, ?_, ?_, ?_, ?_, ?_, ?_, h.memOk, h.bufferOk, h.buffer⟩
  · intro who' r t hm
    rw [htop]
    exact h.ownerTop (hold hm rfl)
  · exact fun h1 h2 => h.ownerInj (hold h1 rfl) (hold h2 rfl)
  · intro i
    rw [htop]
    exact h.epochLe i
  · intro who' q o' t e hm he
    rcases hcases hm with heq | hm
    · cases heq
      have hd : p.isData = true := by
        cases p <;> first | rfl | cases he
      have hepoch : (w.inst who.inst).epoch = e := by
        cases (hw.data hd).2 with
        | wal | sst | blob => exact Option.some.inj he
      exact ⟨hepoch, by rw [← hepoch]; exact (hwriter hd).cons⟩
    · exact ⟨(h.storedBy hm he).1, (h.storedBy hm he).2.cons⟩
  · intro who' e n o' t hm
    rcases hcases hm with heq | hm
    · cases heq
      cases (hw.data rfl).2 with
      | wal _ _ hn _ => exact hn
    · exact h.walNum hm
  · intro who' e l n o' t hm
    rcases hcases hm with heq | hm
    · cases heq
      cases (hw.data rfl).2 with
      | sst _ _ _ _ hn _ _ => exact hn
    · exact h.sstNum hm
  · exact fun hc => (h.cache hc).cons
  · exact fun hc => hw.grows _ _ (h.sstCache hc)

theorem HandleInv.delete (h : HandleInv M.toTrack w.st (stores w.hist) w.inst)
    (hp : p ≠ .ownership) : HandleInv M.toTrack (w.st.delete p) (stores w.hist) w.inst := by
  have htop : (w.st.delete p).topEpoch = w.st.topEpoch :=
    topEpoch_eq (Storage.lookup_delete_ne _ (Ne.symm hp))
  refine ⟨?_, h.ownerInj, ?_, h.storedBy, h.walNum, h.sstNum, h.cache, h.sstCache, h.memOk,
    h.bufferOk, h.buffer⟩
  · intro who' r t hm
    rw [htop]
    exact h.ownerTop hm
  · intro i
    rw [htop]
    exact h.epochLe i

theorem topEpoch_write_owner (w : World) (who : Who) (r : OwnershipRecord) :
    (w.write who .ownership (.ownership r)).st.topEpoch = r.epoch := by
  simp [Storage.topEpoch, Storage.owner]

theorem HandleInv.acquire {r : OwnershipRecord}
    (h : HandleInv M.toTrack w.st (stores w.hist) w.inst) (hr : r.epoch = w.st.topEpoch + 1) :
    HandleInv M.toTrack (w.write who .ownership (.ownership r)).st
      (stores (w.write who .ownership (.ownership r)).hist) w.inst := by
  have htop := topEpoch_write_owner w who r
  have hle : w.st.topEpoch ≤ r.epoch := by omega
  have hcases : ∀ {x}, x ∈ stores (w.write who .ownership (.ownership r)).hist →
      x = (who, .ownership, .ownership r, w.st.seq + 1) ∨ x ∈ stores w.hist :=
    fun hx => List.mem_cons.mp hx
  have harch : (w.write who .ownership (.ownership r)).archive = w.archive :=
    archive_write_other rfl w who _
  refine ⟨?_, ?_, ?_, ?_, ?_, ?_, ?_, ?_, h.memOk, h.bufferOk, h.buffer⟩
  · intro who' r' t hm
    rw [htop]
    rcases hcases hm with heq | hm
    · cases heq
      exact ⟨by omega, le_refl _⟩
    · exact ⟨(h.ownerTop hm).1, le_trans (h.ownerTop hm).2 hle⟩
  · -- the new epoch is larger than every recorded one
    intro who1 who2 r1 r2 t1 t2 h1 h2 heq
    rcases hcases h1 with heq1 | h1 <;> rcases hcases h2 with heq2 | h2
    · cases heq1; cases heq2; exact ⟨rfl, rfl⟩
    · cases heq1
      have := (h.ownerTop h2).2
      omega
    · cases heq2
      have := (h.ownerTop h1).2
      omega
    · exact h.ownerInj h1 h2 heq
  · intro i
    rw [htop]
    exact le_trans (h.epochLe i) hle
  · intro who' q o' t e hm he
    rcases hcases hm with heq | hm
    · cases heq
      cases he
    · exact ⟨(h.storedBy hm he).1, (h.storedBy hm he).2.cons⟩
  · intro who' e n o' t hm
    rcases hcases hm with heq | hm
    · cases heq
    · exact h.walNum hm
  · intro who' e l n o' t hm
    rcases hcases hm with heq | hm
    · cases heq
    · exact h.sstNum hm
  · exact fun hc => (h.cache hc).cons
  · intro i q f hc
    have := h.sstCache hc
    rw [← World.archive, ← harch] at this
    exact this

end OxKv
