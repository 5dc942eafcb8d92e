import OxKv.Runs.Lives

/-!
Clones of one store: threads that share an owner's handle, along any schedule.
-/

namespace OxKv

@[reducible] def crowd (cr : Crates) : Mode := { lone (looseTrack cr) True with solo := False }

/-- A run of the clones of an owner that looks manifests up again. -/
structure ClonesRun where
  lives : List Life
  builder : Builder
  oracle : engine.Oracle
  calls : List (List Call)
  sched : List (Nat × Choice)
  cx : Ctx
  rest : engine.Oracle
  opened : World
  pool : engine.Pool
  few : lives.length < 2 ^ 64 - 1
  crates : ∀ l ∈ lives, l.builder.crates = builder.crates
  opens : (runLives 0 lives World.start).bind (engine.run ⟨0, lives.length⟩ (build builder) oracle) =
    some (.ok cx, rest, opened)
  revalidates : (opened.inst lives.length).skipRevalidation = false
  runs : engine.runPool sched ⟨opened, spawn (calls.map (.clone lives.length cx))⟩ = some pool

theorem getElem?_spawn {jobs : List Job} {j : Nat} {who : Who} {p : Prog Act Unit}
    (h : (spawn jobs)[j]? = some (who, p)) :
    ∃ job ∈ jobs, who = ⟨j, job.inst⟩ ∧ p = job.prog := by
  rw [spawn, List.getElem?_mapIdx, Option.map_eq_some_iff] at h
  obtain ⟨job, hjob, heq⟩ := h
  cases heq
  exact ⟨job, List.mem_of_getElem? hjob, rfl, rfl⟩

theorem spawn_distinct (jobs : List Job) : Rules.Distinct (M := engine) (spawn jobs) := by
  show ((spawn jobs).map Prod.fst).Nodup
  rw [spawn, List.nodup_iff_injective_get]
  intro a b hab
  simp only [List.get_eq_getElem, List.getElem_map, List.getElem_mapIdx] at hab
  exact Fin.ext (Who.mk.inj hab).1

namespace ClonesRun

variable (R : ClonesRun)

theorem outside : ∃ g, ∀ j,
    Outside (crowd R.builder.crates) ⟨j, R.lives.length⟩ R.cx (R.opened, g) := by
  obtain ⟨w, g, hw, hb, -⟩ := runLives_loose (P := fun _ _ => True)
    (lt_of_lt_of_le R.few (Nat.sub_le ..)) R.crates trivial (fun _ _ _ _ _ _ => trivial)
    (fun _ _ _ _ => trivial)
  have ho := R.opens
  rw [hw] at ho
  obtain ⟨m, hm⟩ := hb.inv.exists_shown
  obtain ⟨-, hend⟩ := (rules (lone (looseTrack R.builder.crates) True)).run_safe hb.inv
    (build_safe trivial (hb.opening hm fun h => absurd trivial h) (lt_of_le_of_lt hb.top R.few) rfl)
    (fun n => .inr ⟨trivial, nofun⟩) (lone_permits _ _ _)
  obtain ⟨-, g', -, hbuilt, -⟩ := hend _ _ _ ho
  have h := Built.outside hbuilt
  refine ⟨g', fun j => { h with mine := .inl h.ready, sync := ?_, free := nofun, empty := nofun }⟩
  simp [Sync, R.revalidates]

/-- The invariant holds wherever the clones stop. -/
theorem inv : ∃ g, Inv (looseTrack R.builder.crates) R.pool.state g := by
  obtain ⟨g, hout⟩ := R.outside
  have hsafe : (rules (crowd R.builder.crates)).PoolSafe (fun _ _ => True)
      ⟨R.opened, spawn (R.calls.map (.clone R.lives.length R.cx))⟩ g := by
    refine ⟨(hout 0).inv, fun j who p hj => ?_⟩
    obtain ⟨job, hjob, rfl, rfl⟩ := getElem?_spawn hj
    obtain ⟨cs, -, rfl⟩ := List.mem_map.mp hjob
    refine (client_safe (Talks.any (fun c _ => ?_) fun _ _ _ _ => trivial) (n := 0) rfl
      ⟨hout j, TxTable.none_ok _⟩).mono fun _ _ _ _ => trivial
    exact @Call.ok_lone (looseTrack _) True c (fun _ => ⟨trivial, id⟩) nofun nofun
  obtain ⟨g', hsafe', -, -⟩ := (rules (crowd R.builder.crates)).runPool_safe
    (fun _ _ _ _ hne he => ⟨nofun, .single ⟨_, hne, he⟩⟩) R.sched (spawn_distinct _) hsafe
    (fun _ _ => .inr ⟨trivial, nofun⟩) R.runs
    (.of_all (fun _ a w r _ => by exact @lone_allowed (looseTrack _) True _ _ a w r) _ _)
  exact ⟨g', hsafe'.1⟩

/-- A schedule of clones of the sample store that can be followed is a run. -/
theorem of_sample (calls : List (List Call)) (sched : List Nat) (p : World → Prop)
    [DecidablePred p]
    (h : (engine.run ⟨0, 0⟩ (build sampleBuilder) faultless World.start).any (fun x =>
      x.1.toOption.any fun cx => !(x.2.2.inst 0).skipRevalidation &&
        (engine.runPool (sched.map (·, ⟨none, true⟩))
          ⟨x.2.2, spawn (calls.map (.clone 0 cx))⟩).any fun P => p P.state) = true) :
    ∃ R : ClonesRun, p R.pool.state := by
  simp only [Option.any_eq_true, Bool.and_eq_true, Bool.not_eq_true', decide_eq_true_eq] at h
  obtain ⟨⟨_ | cx, o, w⟩, ho, _, hcx, hm, P, hrun, hp⟩ := h <;> cases hcx
  exact ⟨⟨[], sampleBuilder, faultless, _, _, cx, o, w, P, by decide, nofun, ho, hm, hrun⟩, hp⟩

end ClonesRun

/-- A listed file with queued writes holds just the batch its leader drained before it listed the
file, no write is in two files, and an answered write is in one exactly if the answer is a
success. -/
theorem group_commit_exact (R : ClonesRun) : ∃ order : List LinEntry,
    (∀ {who m t}, (who, .manifest, .manifest m, t) ∈ stores R.pool.state.hist →
      ∀ p ∈ m.wal, ∃ e ∈ order, e.path = p) ∧
    (order.map LinEntry.path).Nodup ∧ (order.flatMap LinEntry.ids).Nodup ∧
    (∀ e ∈ order, WasListed (stores R.pool.state.hist) e.path ∧
      (∃ b, R.pool.state.archive e.path = some (.bytes b) ∧ encodeOps e.ops = .ok b) ∧
      e.ids.length ≤ maxGroupWrites ∧ (e.ids ≠ [] →
        (∃ h m t, ((e.who, .stored .manifest (.manifest m) t) :: h) <:+ R.pool.state.hist ∧
          e.path ∈ m.wal ∧ (e.who, .drained e.ids) ∈ h) ∧
        ∃ batch : List PendingWrite, e.ids = batch.map PendingWrite.id ∧ e.ops = batchOps batch ∧
          ∀ pw ∈ batch, ∃ who, (who, .pushed pw) ∈ R.pool.state.hist)) ∧
    ∀ id r, R.pool.state.answers id = some r → (r = .ok () ↔ ∃ e ∈ order, id ∈ e.ids) := by
  obtain ⟨g, hi⟩ := R.inv
  refine ⟨g.lin, hi.lin.listed, hi.lin.paths, hi.lin.once, fun e he => ⟨hi.lin.wasListed he,
    hi.lin.payload e he, hi.sizes e he, fun hne => ?_⟩, fun id r hr => ?_⟩
  · obtain ⟨h, m, t, hs, -, hp, hdr, -⟩ := hi.lin.event e he
    obtain ⟨batch, hids, hops, hslots⟩ := hi.lin.batch e he hne
    refine ⟨⟨h, m, t, hs, hp, hdr hne⟩, batch, hids, hops, fun pw hpw => ?_⟩
    have hw : (g.slot pw.id).write? = some pw := by
      rcases hslots pw hpw with ⟨i, hs⟩ | ⟨r, hs⟩ <;> rw [hs] <;> rfl
    exact (hi.queue.write hw).2.pushed
  · obtain ⟨pw, hs⟩ := (hi.queue.answers id r).mp hr
    exact hi.queue.settled hs

/-- Two puts, both committed by the first thread. -/
theorem group_commit_exact_two : ∃ (R : ClonesRun) (order : List LinEntry),
    ∀ id < 2, R.pool.state.answers id = some (.ok ()) ∧ ∃ e ∈ order, id ∈ e.ids := by
  obtain ⟨R, hids⟩ := ClonesRun.of_sample (List.replicate 2 [.put "a" [1]])
    ([0, 1, 0, 1, 0, 1] ++ List.replicate 18 0)
    (fun w => ∀ id < (2 : Nat), w.answers id = some (.ok ())) (by decide +kernel)
  obtain ⟨order, -, -, -, -, hans⟩ := group_commit_exact R
  exact ⟨R, order, fun id hid => ⟨hids id hid, (hans id _ (hids id hid)).mp rfl⟩⟩

end OxKv
