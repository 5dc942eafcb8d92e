import OxKv.Query.Gets
import OxKv.Snapshot.Load

/-!
`SaveStream`: the store is read in pages of 256 rows from an inclusive cursor, the rows
are encoded into a buffer, and the buffer is yielded when it has grown to 16 KiB or the
rows are exhausted. A page may take any number of polls to arrive.

* `Streaming`: which rows were yielded, which are in the buffer and which are to come;
* `pollNext_spec`: what one poll does to them;
* `save_round_trip`: the chunks of an unchanging store, and the store loaded from them.
-/

namespace OxKv.Snapshot

/-! ## The code -/

/-- `SAVE_CHUNK_TARGET`. Irreducible, since unification would count it down. -/
@[irreducible] def chunkTarget : Nat := 16 * 1024

/-- `SAVE_BATCH_SIZE`. -/
def saveBatchSize : Nat := 256

/-- `SaveStream`; the read in flight is given by its cursor. -/
structure SaveStream where
  cursor : Option Key
  buffer : Bytes
  pending : Option (Option Key)
  exhausted : Bool

def SaveStream.new : SaveStream := ⟨none, header, none, false⟩

/-- `Poll<Option<Result<Vec<u8>>>>`. -/
inductive Poll where
  | pending
  | ready (item : Option (Res Bytes))

namespace SaveStream

/-- The loop over a batch: the failure, the buffer, the last key and how many rows were
encoded. -/
def encodeBatch (cursor : Option Key) :
    List KeyValue → Bytes → Option Key → Nat → Option StoreError × Bytes × Option Key × Nat
  | [], buffer, lastKey, processed => (none, buffer, lastKey, processed)
  | kv :: batch, buffer, lastKey, processed =>
    -- the inclusive lower bound carried over from the previous page
    if cursor = some kv.1 then encodeBatch cursor batch buffer lastKey processed
    else
      match encodeRecord kv.1 kv.2 with
      | .error e => (some e, buffer, lastKey, processed)
      | .ok bytes => encodeBatch cursor batch (buffer ++ bytes) (some kv.1) (processed + 1)

/-- A read that is ready. -/
def absorb (s : SaveStream) : Res (List KeyValue) → Option StoreError × SaveStream
  | .error e => (some e, { s with pending := none, exhausted := true })
  | .ok [] => (none, { s with pending := none, exhausted := true })
  | .ok batch =>
    match encodeBatch s.cursor batch s.buffer none 0 with
    | (some e, buffer, _, _) =>
      (some e, { s with buffer := buffer, pending := none, exhausted := true })
    | (none, buffer, lastKey, processed) =>
      (none, ⟨lastKey, buffer, none,
        s.exhausted || decide (batch.length < saveBatchSize ∨ processed = 0)⟩)

/-- The first part of the loop body: the read in flight is polled. `ready` answers one
poll after the other. -/
def takeBatch (scan : Query.Scan) (ready : Nat → Bool) (s : SaveStream) :
    Option Poll × (Nat → Bool) × SaveStream :=
  match s.pending with
  | none => (none, ready, s)
  | some cursor =>
    let later := fun n => ready (n + 1)
    if ready 0 then
      match s.absorb (scan (some saveBatchSize) .next (cursor, none)) with
      | (some e, s) => (some (.ready (some (.error e))), later, s)
      | (none, s) => (none, later, s)
    else (some .pending, later, s)

/-- The second part of the loop body: an item, or the next page is asked for. -/
def emit (s : SaveStream) : Option (Option (Res Bytes)) × SaveStream :=
  if chunkTarget ≤ s.buffer.length then (some (some (.ok s.buffer)), { s with buffer := [] })
  else if s.exhausted then
    if s.buffer.isEmpty then (some none, s)
    else (some (some (.ok s.buffer)), { s with buffer := [] })
  else (none, { s with pending := some s.cursor })

/-- `poll_next`; `none` when the fuel is not enough. -/
def pollNext (scan : Query.Scan) :
    Nat → (Nat → Bool) → SaveStream → Option (Poll × (Nat → Bool) × SaveStream)
  | 0, _, _ => none
  | fuel + 1, ready, s =>
    match takeBatch scan ready s with
    | (some p, ready, s) => some (p, ready, s)
    | (none, ready, s) =>
      match s.emit with
      | (some item, s) => some (.ready item, ready, s)
      | (none, s) => pollNext scan fuel ready s

/-- The chunks a consumer gets that polls until the stream ends or fails. -/
def collect (scan : Query.Scan) (fuel : Nat) :
    Nat → (Nat → Bool) → SaveStream → Option (Res (List Bytes))
  | 0, _, _ => none
  | polls + 1, ready, s =>
    match pollNext scan fuel ready s with
    | none => none
    | some (.pending, ready, s) => collect scan fuel polls ready s
    | some (.ready none, _, _) => some (.ok [])
    | some (.ready (some (.error e)), _, _) => some (.error e)
    | some (.ready (some (.ok chunk)), ready, s) =>
      (collect scan fuel polls ready s).map fun r => r.map fun chunks => chunk :: chunks

end SaveStream

/-! ## Rows, chunks and groups -/

/-- The chunks of some groups of rows; the header leads the first one. -/
def frames : List (List KeyValue) → List Bytes
  | [] => []
  | g :: gs => (header ++ recordsBytes g) :: gs.map recordsBytes

/-- What the buffer starts with after these groups. -/
def lead : List (List KeyValue) → Bytes
  | [] => header
  | _ :: _ => []

theorem frames_concat (gs : List (List KeyValue)) (g : List KeyValue) :
    frames (gs ++ [g]) = frames gs ++ [lead gs ++ recordsBytes g] := by
  cases gs with
  | nil => rfl
  | cons g' gs => simp [frames, lead]

theorem recordsBytes_append (a b : List KeyValue) :
    recordsBytes (a ++ b) = recordsBytes a ++ recordsBytes b := List.flatMap_append

theorem flatten_map_recordsBytes (gs : List (List KeyValue)) :
    (gs.map recordsBytes).flatten = recordsBytes gs.flatten := by
  induction gs with
  | nil => rfl
  | cons g gs ih => rw [List.map_cons, List.flatten_cons, List.flatten_cons, ih, recordsBytes_append]

theorem flatten_frames {gs : List (List KeyValue)} (h : gs ≠ []) :
    (frames gs).flatten = header ++ recordsBytes gs.flatten := by
  cases gs with
  | nil => exact absurd rfl h
  | cons g gs =>
    rw [frames, List.flatten_cons, List.flatten_cons, flatten_map_recordsBytes,
      recordsBytes_append, List.append_assoc]

theorem recordsBytes_eq_nil {kvs : List KeyValue} (h : recordsBytes kvs = []) : kvs = [] := by
  cases kvs with
  | nil => rfl
  | cons kv kvs =>
    have hlen := length_recordBytes (kv.1, some kv.2)
    rw [recordsBytes, List.flatMap_cons, List.append_eq_nil_iff] at h
    rw [h.1] at hlen
    exact absurd hlen (by decide)

def Fits32 (kv : KeyValue) : Prop := (keyBytes kv.1).length < 2 ^ 32 ∧ kv.2.length < 2 ^ 32

theorem encodeRecord_eq {kv : KeyValue} (h : Fits32 kv) :
    encodeRecord kv.1 kv.2 = .ok (recordBytes (kv.1, some kv.2)) := by
  rw [encodeRecord, if_neg (Nat.not_le.mpr h.1), if_neg (Nat.not_le.mpr h.2)]

/-! ## One page -/

theorem encodeBatch_skip {cursor : Option Key} {skip : List KeyValue}
    (hskip : ∀ kv ∈ skip, cursor = some kv.1) (batch : List KeyValue) (buffer : Bytes)
    (lastKey : Option Key) (processed : Nat) :
    SaveStream.encodeBatch cursor (skip ++ batch) buffer lastKey processed =
      SaveStream.encodeBatch cursor batch buffer lastKey processed := by
  induction skip with
  | nil => rfl
  | cons kv skip ih =>
    obtain ⟨hkv, hskip⟩ := List.forall_mem_cons.mp hskip
    rw [List.cons_append, SaveStream.encodeBatch, if_pos hkv, ih hskip]

theorem encodeBatch_fresh {cursor : Option Key} {batch : List KeyValue}
    (hfresh : ∀ kv ∈ batch, cursor ≠ some kv.1) (hsize : ∀ kv ∈ batch, Fits32 kv) (buffer : Bytes)
    (lastKey : Option Key) (processed : Nat) :
    SaveStream.encodeBatch cursor batch buffer lastKey processed =
      (none, buffer ++ recordsBytes batch,
        (batch.getLast?.map Prod.fst).or lastKey, processed + batch.length) := by
  induction batch generalizing buffer lastKey processed with
  | nil => simp [SaveStream.encodeBatch, recordsBytes]
  | cons kv batch ih =>
    obtain ⟨hkv, hfresh⟩ := List.forall_mem_cons.mp hfresh
    obtain ⟨hlen, hsize⟩ := List.forall_mem_cons.mp hsize
    rw [SaveStream.encodeBatch, if_neg hkv, encodeRecord_eq hlen]
    dsimp only
    rw [ih hfresh hsize, List.getLast?_cons, recordsBytes, recordsBytes, List.flatMap_cons,
      List.append_assoc, List.length_cons, Nat.add_right_comm, ← Nat.add_assoc]
    cases batch.getLast? <;> rfl

/-- The page from the last row seen: that row again, unless it is the first page, and the
rows to come. -/
theorem page_eq {scan : Query.Scan} {m : Plain} (hscan : Query.Lists scan m)
    {seen todo : List KeyValue} (hrows : m.toList = seen ++ todo) :
    ∃ skip k, skip.length + k = saveBatchSize ∧ 0 < k ∧
      scan (some saveBatchSize) .next (seen.getLast?.map Prod.fst, none) =
        .ok (skip ++ todo.take k) ∧
      (∀ kv ∈ skip, seen.getLast?.map Prod.fst = some kv.1) ∧
      ∀ kv ∈ todo, seen.getLast?.map Prod.fst ≠ some kv.1 := by
  have hall : m.gets none .next (none, none) = seen ++ todo := by
    rw [← hrows]
    exact List.filter_eq_self.mpr fun _ _ => rfl
  rcases List.eq_nil_or_concat seen with rfl | ⟨a, x, rfl⟩
  · refine ⟨[], saveBatchSize, Nat.zero_add _, by decide, ?_, nofun, nofun⟩
    rw [hscan, Query.gets_limit]
    show Except.ok ((m.gets none .next (none, none)).take saveBatchSize) = _
    rw [hall]
    rfl
  · rw [List.concat_eq_append] at hall hrows ⊢
    have hlast : (a ++ [x]).getLast?.map Prod.fst = some x.1 := by simp
    rw [List.append_assoc, List.singleton_append] at hall hrows
    have hsorted := m.ascending
    rw [hrows] at hsorted
    refine ⟨[x], saveBatchSize - 1, rfl, by decide, ?_, ?_, ?_⟩
    · rw [hlast, hscan, Query.gets_limit, Query.gets_from hall]
      rfl
    · intro kv hkv
      rw [List.mem_singleton.mp hkv, hlast]
    · intro kv hkv heq
      rw [hlast, Option.some.injEq] at heq
      have hlt := (List.pairwise_cons.mp (List.pairwise_append.mp hsorted).2.1).1 kv hkv
      rw [heq] at hlt
      exact lt_irrefl _ hlt

theorem take_getLast?_ne_none {todo : List KeyValue} {k : Nat} (hk : 0 < k)
    (hfull : ¬ todo.length < k) : (todo.take k).getLast? ≠ none := by
  rw [Ne, List.getLast?_eq_none_iff, List.take_eq_nil_iff]
  rintro (hzero | rfl)
  · omega
  · exact hfull hk

theorem absorb_eq {s : SaveStream} {batch : List KeyValue} {buffer : Bytes} {lastKey : Option Key}
    {processed : Nat} (hne : batch ≠ [])
    (h : SaveStream.encodeBatch s.cursor batch s.buffer none 0 =
      (none, buffer, lastKey, processed)) :
    s.absorb (.ok batch) = (none, ⟨lastKey, buffer, none,
      s.exhausted || decide (batch.length < saveBatchSize ∨ processed = 0)⟩) := by
  cases batch with
  | nil => exact absurd rfl hne
  | cons kv batch =>
    rw [SaveStream.absorb, h]
    exact nofun

/-! ## The state between two polls -/

/-- The rows of the groups were yielded, those of `cur` are in the buffer, `todo` is to
come. -/
structure Streaming (m : Plain) (s : SaveStream) (groups : List (List KeyValue))
    (cur todo : List KeyValue) : Prop where
  rows : m.toList = (groups.flatten ++ cur) ++ todo
  buffer : s.buffer = lead groups ++ recordsBytes cur
  cursor : s.exhausted = false → s.cursor = (groups.flatten ++ cur).getLast?.map Prod.fst
  pending : ∀ c, s.pending = some c → c = s.cursor ∧ s.exhausted = false
  done : s.exhausted = true → todo = []

/-- What is still to be read. -/
def weight (s : SaveStream) (todo : List KeyValue) : Nat :=
  todo.length + if s.exhausted then 0 else 1

theorem Streaming.start (m : Plain) : Streaming m .new [] [] m.toList :=
  ⟨rfl, (List.append_nil _).symm, fun _ => rfl, nofun, nofun⟩

section

variable {scan : Query.Scan} {m : Plain} {s : SaveStream} {groups : List (List KeyValue)}
  {cur todo : List KeyValue}

/-- A page arrives. -/
theorem Streaming.absorb (hscan : Query.Lists scan m) (hsize : ∀ kv ∈ m.toList, Fits32 kv)
    (h : Streaming m s groups cur todo) {c : Option Key} (hc : s.pending = some c) :
    ∃ s' cur' todo', s.absorb (scan (some saveBatchSize) .next (c, none)) = (none, s') ∧
      Streaming m s' groups cur' todo' ∧ s'.pending = none ∧ weight s' todo' < weight s todo := by
  obtain ⟨rfl, hmore⟩ := h.pending c hc
  obtain ⟨skip, k, hlen, hk, hpage, hskip, hfresh⟩ := page_eq hscan h.rows
  rw [← h.cursor hmore] at hpage hskip hfresh
  rw [hpage]
  have hweight : weight s todo = todo.length + 1 := by rw [weight, hmore]; rfl
  by_cases hnil : skip ++ todo.take k = []
  · -- an empty store
    have htodo : todo = [] := by
      have htake := (List.append_eq_nil_iff.mp hnil).2
      rcases List.take_eq_nil_iff.mp htake with hzero | htodo
      · omega
      · exact htodo
    subst htodo
    refine ⟨{ s with pending := none, exhausted := true }, cur, [], ?_, ?_, rfl, ?_⟩
    · rw [hnil, SaveStream.absorb]
    · exact ⟨h.rows, h.buffer, nofun, nofun, fun _ => rfl⟩
    · rw [hweight]
      exact Nat.zero_lt_one
  · have hbatch := encodeBatch_skip hskip (todo.take k) s.buffer none 0
    rw [encodeBatch_fresh (fun kv hkv => hfresh kv (List.mem_of_mem_take hkv))
      (fun kv hkv => hsize kv (by rw [h.rows]; simp [List.mem_of_mem_take hkv]))] at hbatch
    have hlast : (skip ++ todo.take k).length < saveBatchSize ∨ 0 + (todo.take k).length = 0 ↔
        todo.length < k := by
      rw [List.length_append, List.length_take]
      omega
    have hend : decide ((skip ++ todo.take k).length < saveBatchSize ∨
        0 + (todo.take k).length = 0) = decide (todo.length < k) := decide_eq_decide.mpr hlast
    refine ⟨_, cur ++ todo.take k, todo.drop k, absorb_eq hnil hbatch, ⟨?_, ?_, ?_, nofun, ?_⟩,
      rfl, ?_⟩
    · rw [h.rows, List.append_assoc, List.append_assoc, List.append_assoc, List.take_append_drop]
    · rw [h.buffer, recordsBytes_append, List.append_assoc]
    · rw [hmore, hend, Bool.false_or, decide_eq_false_iff_not]
      intro hfull
      obtain ⟨x, hx⟩ := Option.ne_none_iff_exists'.mp (take_getLast?_ne_none hk hfull)
      rw [Option.or_none, ← List.append_assoc, List.getLast?_append, hx]
      rfl
    · rw [hmore, hend, Bool.false_or, decide_eq_true_eq]
      intro hshort
      exact List.drop_eq_nil_of_le (Nat.le_of_lt hshort)
    · rw [hweight, weight, List.length_drop]
      rw [hmore, hend, Bool.false_or]
      by_cases hshort : todo.length < k
      · rw [if_pos (decide_eq_true hshort)]
        omega
      · rw [if_neg (by simpa using hshort)]
        omega

/-! ## One poll -/

/-- What a poll that starts from these rows, with the buffer `buffer`, may answer. -/
def Answers (m : Plain) (groups : List (List KeyValue)) (w : Nat) (buffer : Bytes)
    (ready : Nat → Bool) : Poll × (Nat → Bool) × SaveStream → Prop
  | (.pending, ready', s') => ∃ cur' todo', Streaming m s' groups cur' todo' ∧
      (weight s' todo' < w ∨ weight s' todo' = w ∧ s'.buffer = buffer ∧ ready 0 = false ∧
        ready' = fun n => ready (n + 1))
  | (.ready none, _, _) => groups ≠ [] ∧ groups.flatten = m.toList
  | (.ready (some (.ok chunk)), ready', s') => ∃ cur' todo',
      chunk = lead groups ++ recordsBytes cur' ∧
      Streaming m s' (groups ++ [cur']) [] todo' ∧ s'.buffer = [] ∧
      (weight s' todo' < w ∨ weight s' todo' = w ∧ buffer ≠ [] ∧ ready' = ready)
  | (.ready (some (.error _)), _, _) => False

/-- The buffer is yielded. -/
theorem Streaming.yield (h : Streaming m s groups cur todo) (hp : s.pending = none) :
    Streaming m { s with buffer := [] } (groups ++ [cur]) [] todo := by
  have hflat : (groups ++ [cur]).flatten ++ [] = groups.flatten ++ cur := by simp
  refine ⟨?_, ?_, ?_, ?_, h.done⟩
  · rw [hflat, h.rows]
  · cases groups <;> rfl
  · rw [hflat]
    exact h.cursor
  · intro c hc
    rw [hp] at hc
    cases hc

/-- The rest of the loop body from a state without a read in flight. -/
theorem Streaming.emit (h : Streaming m s groups cur todo) (hp : s.pending = none) :
    (∃ item s', s.emit = (some item, s') ∧ ∀ ready,
        Answers m groups (weight s todo) s.buffer ready (.ready item, ready, s')) ∨
      s.emit = (none, { s with pending := some s.cursor }) ∧
        Streaming m { s with pending := some s.cursor } groups cur todo := by
  have hyield : s.buffer ≠ [] → ∀ ready, Answers m groups (weight s todo) s.buffer ready
      (.ready (some (.ok s.buffer)), ready, { s with buffer := [] }) := fun hne ready =>
    ⟨cur, todo, h.buffer, h.yield hp, rfl, Or.inr ⟨rfl, hne, rfl⟩⟩
  unfold SaveStream.emit
  split
  · rename_i hfull
    refine .inl ⟨_, _, rfl, hyield ?_⟩
    intro hnil
    rw [hnil] at hfull
    unfold chunkTarget at hfull
    exact absurd hfull (by decide)
  · split
    · rename_i hend
      split
      · rename_i hempty
        refine .inl ⟨_, _, rfl, fun _ => ?_⟩
        have hnil := h.buffer.symm.trans (List.isEmpty_iff.mp hempty)
        obtain ⟨hlead, hcur⟩ := List.append_eq_nil_iff.mp hnil
        have hrows := h.rows
        rw [h.done hend, recordsBytes_eq_nil hcur, List.append_nil, List.append_nil] at hrows
        refine ⟨?_, hrows.symm⟩
        rintro rfl
        cases hlead
      · rename_i hempty
        exact .inl ⟨_, _, rfl, hyield fun hnil => hempty (List.isEmpty_iff.mpr hnil)⟩
    · rename_i hmore
      have hmore : s.exhausted = false := by simpa using hmore
      refine .inr ⟨rfl, h.rows, h.buffer, h.cursor, ?_, h.done⟩
      rintro _ ⟨⟩
      exact ⟨rfl, hmore⟩

variable {ready ready' : Nat → Bool}

theorem Answers.mono {w w' : Nat} {buffer buffer' : Bytes} {r : Poll × (Nat → Bool) × SaveStream}
    (h : Answers m groups w buffer ready r) (hw : w < w') :
    Answers m groups w' buffer' ready' r := by
  match r, h with
  | (.pending, _, _), ⟨cur', todo', hs, hle⟩ =>
    exact ⟨cur', todo', hs, Or.inl (by omega)⟩
  | (.ready none, _, _), h => exact h
  | (.ready (some (.ok _)), _, _), ⟨cur', todo', hc, hs, hb, hle⟩ =>
    exact ⟨cur', todo', hc, hs, hb, Or.inl (by omega)⟩

/-- The later answers of the reads. -/
def Tail (ready ready' : Nat → Bool) : Prop := ∃ n, ready' = fun i => ready (n + i)

theorem Tail.refl (ready : Nat → Bool) : Tail ready ready := ⟨0, by funext i; rw [Nat.zero_add]⟩

theorem Tail.next (ready : Nat → Bool) : Tail ready fun i => ready (i + 1) :=
  ⟨1, by funext i; rw [Nat.add_comm]⟩

theorem Tail.trans {a b c : Nat → Bool} (h1 : Tail a b) (h2 : Tail b c) : Tail a c := by
  obtain ⟨n, rfl⟩ := h1
  obtain ⟨k, rfl⟩ := h2
  exact ⟨n + k, by funext i; rw [Nat.add_assoc]⟩

variable {fuel : Nat}

theorem pollNext_spec (hscan : Query.Lists scan m) (hsize : ∀ kv ∈ m.toList, Fits32 kv)
    (h : Streaming m s groups cur todo)
    (hfuel : weight s todo + (if s.pending = none then 1 else 0) < fuel) :
    ∃ r, SaveStream.pollNext scan fuel ready s = some r ∧ Tail ready r.2.1 ∧
      Answers m groups (weight s todo) s.buffer ready r := by
  induction fuel generalizing ready s cur todo with
  | zero => omega
  | succ fuel ih =>
    rw [SaveStream.pollNext, SaveStream.takeBatch]
    cases hp : s.pending with
    | none =>
      rw [hp, if_pos rfl] at hfuel
      dsimp only
      rcases h.emit hp with ⟨item, s', heq, hans⟩ | ⟨heq, hnext⟩
      · rw [heq]
        exact ⟨_, rfl, .refl _, hans ready⟩
      · rw [heq]
        exact ih hnext (by rw [if_neg nofun]; exact Nat.lt_of_succ_lt_succ hfuel)
    | some c =>
      dsimp only
      by_cases hready : ready 0 = true
      · obtain ⟨s', cur', todo', heq, hs', hp', hweight⟩ := h.absorb hscan hsize hp
        rw [if_pos hready, heq]
        dsimp only
        rcases hs'.emit hp' with ⟨item, s'', hemit, hans⟩ | ⟨hemit, hnext⟩
        · rw [hemit]
          exact ⟨_, rfl, .next _, (hans _).mono hweight⟩
        · rw [hemit]
          obtain ⟨r, hpoll, htail, hans⟩ := @ih { s' with pending := some s'.cursor } cur' todo'
            (fun n => ready (n + 1)) hnext (by
              rw [if_neg nofun]
              show weight s' todo' + 0 < fuel
              omega)
          exact ⟨r, hpoll, (Tail.next _).trans htail, hans.mono hweight⟩
      · rw [if_neg hready]
        refine ⟨_, rfl, .next _, cur, todo, h, Or.inr ⟨rfl, rfl, ?_, rfl⟩⟩
        simpa using hready

/-! ## The whole stream -/

theorem pollNext_mono {fuel' : Nat} {r : Poll × (Nat → Bool) × SaveStream}
    (h : SaveStream.pollNext scan fuel ready s = some r) (hle : fuel ≤ fuel') :
    SaveStream.pollNext scan fuel' ready s = some r := by
  induction fuel generalizing fuel' ready s with
  | zero => cases h
  | succ fuel ih =>
    cases fuel' with
    | zero => omega
    | succ fuel' =>
      rw [SaveStream.pollNext] at h ⊢
      split at h
      · exact h
      · split at h
        · exact h
        · exact ih h (Nat.le_of_succ_le_succ hle)

/-- The reads arrive again and again. -/
def Arrives (ready : Nat → Bool) : Prop := ∀ n, ∃ k, n ≤ k ∧ ready k = true

theorem Arrives.tail (h : Arrives ready) (ht : Tail ready ready') : Arrives ready' := by
  obtain ⟨n, rfl⟩ := ht
  intro i
  obtain ⟨k, hk, hready⟩ := h (n + i)
  refine ⟨k - n, by omega, ?_⟩
  show ready (n + (k - n)) = true
  rw [show n + (k - n) = k by omega]
  exact hready

/-- The consumer gets the remaining rows, in whole groups. -/
def Collects (scan : Query.Scan) (m : Plain) (fuel : Nat) (groups : List (List KeyValue))
    (ready : Nat → Bool) (s : SaveStream) : Prop :=
  ∃ gs chunks N, groups ++ gs ≠ [] ∧ (groups ++ gs).flatten = m.toList ∧
    frames (groups ++ gs) = frames groups ++ chunks ∧
    ∀ polls ≥ N, ∀ fuel' ≥ fuel, SaveStream.collect scan fuel' polls ready s = some (.ok chunks)

/-- One poll and then the rest. -/
theorem Collects.poll {s' : SaveStream}
    (hpoll : SaveStream.pollNext scan fuel ready s = some (.pending, ready', s'))
    (h : Collects scan m fuel groups ready' s') : Collects scan m fuel groups ready s := by
  obtain ⟨gs, chunks, N, hne, hflat, hframes, hcollect⟩ := h
  refine ⟨gs, chunks, N + 1, hne, hflat, hframes, fun polls hpolls fuel' hfuel => ?_⟩
  obtain ⟨polls, rfl⟩ : ∃ k, polls = k + 1 := ⟨polls - 1, by omega⟩
  rw [SaveStream.collect, pollNext_mono hpoll hfuel]
  exact hcollect polls (by omega) fuel' hfuel

theorem Collects.chunk {s' : SaveStream} {g : List KeyValue}
    (hpoll : SaveStream.pollNext scan fuel ready s =
      some (.ready (some (.ok (lead groups ++ recordsBytes g))), ready', s'))
    (h : Collects scan m fuel (groups ++ [g]) ready' s') : Collects scan m fuel groups ready s := by
  obtain ⟨gs, chunks, N, hne, hflat, hframes, hcollect⟩ := h
  rw [List.append_assoc, List.singleton_append] at hne hflat hframes
  refine ⟨g :: gs, (lead groups ++ recordsBytes g) :: chunks, N + 1, hne, hflat, ?_, ?_⟩
  · rw [hframes, frames_concat, List.append_assoc, List.singleton_append]
  · intro polls hpolls fuel' hfuel
    obtain ⟨polls, rfl⟩ : ∃ k, polls = k + 1 := ⟨polls - 1, by omega⟩
    rw [SaveStream.collect, pollNext_mono hpoll hfuel]
    dsimp only
    rw [hcollect polls (by omega) fuel' hfuel]
    rfl

/-- By induction on what is to be read, then on the buffer, then on the polls until the
next read arrives. -/
theorem collects (hscan : Query.Lists scan m) (hsize : ∀ kv ∈ m.toList, Fits32 kv) {fuel : Nat}
    (w b n : Nat) {ready : Nat → Bool} {s : SaveStream} {groups : List (List KeyValue)}
    {cur todo : List KeyValue} (h : Streaming m s groups cur todo) (hw : weight s todo = w)
    (hb : s.buffer.length = b) (hn : ready n = true) (harrives : Arrives ready)
    (hfuel : w + 1 < fuel) : Collects scan m fuel groups ready s := by
  have henough : weight s todo + (if s.pending = none then 1 else 0) < fuel := by
    split <;> omega
  obtain ⟨⟨p, ready', s'⟩, hpoll, htail, hans⟩ :=
    @pollNext_spec _ _ _ _ _ _ ready _ hscan hsize h henough
  have harrives' := harrives.tail htail
  match p, hans with
  | .pending, ⟨cur', todo', hs', hless⟩ =>
    rcases hless with hless | ⟨hsame, hbuffer, hwait, rfl⟩
    · obtain ⟨k, -, hk⟩ := harrives' 0
      exact .poll hpoll (collects hscan hsize _ _ k hs' rfl rfl hk harrives' (by omega))
    · cases n with
      | zero =>
        rw [hn] at hwait
        cases hwait
      | succ n =>
        exact .poll hpoll (collects hscan hsize w b n hs' (hsame.trans hw) (by rw [hbuffer, hb]) hn
          harrives' hfuel)
  | .ready none, ⟨hne, hflat⟩ =>
    refine ⟨[], [], 1, by rwa [List.append_nil], by rwa [List.append_nil], by simp, ?_⟩
    intro polls hpolls fuel' hfuel'
    obtain ⟨polls, rfl⟩ : ∃ k, polls = k + 1 := ⟨polls - 1, by omega⟩
    rw [SaveStream.collect, pollNext_mono hpoll hfuel']
  | .ready (some (.ok chunk)), ⟨cur', todo', hchunk, hs', hempty, hless⟩ =>
    subst hchunk
    rcases hless with hless | ⟨hsame, hbuffer, rfl⟩
    · obtain ⟨k, -, hk⟩ := harrives' 0
      exact .chunk hpoll (collects hscan hsize _ _ k hs' rfl rfl hk harrives' (by omega))
    · have hshort : 0 < b := by
        rw [← hb]
        exact List.length_pos_iff.mpr hbuffer
      exact .chunk hpoll (collects hscan hsize w 0 n hs' (hsame.trans hw) (by rw [hempty]; rfl) hn
        harrives' hfuel)
termination_by (w, b, n)

theorem puts_toList (m : Plain) : Plain.applyAll SortedMap.empty (puts m.toList) = m := by
  have hputs : puts m.toList = (m.filterMap fun _ v => some (some v)).toList := by
    show m.toList.map _ = m.toList.filterMap _
    rw [← List.filterMap_eq_map']
    rfl
  apply SortedMap.ext_get
  intro k
  rw [hputs, Plain.get?_applyAll_toList, SortedMap.get?_filterMap]
  cases m.get? k <;> rfl

/-- The stream of an unchanging store ends. Its chunks together are the header and the
records of all keys in ascending order, cut between records, and loading them into an
empty store gives the contents and the number of keys. -/
theorem save_round_trip {scan : Query.Scan} {m : Plain} (hscan : Query.Lists scan m)
    (hsize : ∀ kv ∈ m.toList, (keyBytes kv.1).length < 2 ^ 32 ∧ kv.2.length < 2 ^ 32)
    (ready : Nat → Bool) (hready : ∀ n, ∃ k, n ≤ k ∧ ready k = true) :
    ∃ N chunks, (∀ fuel ≥ N, ∀ polls ≥ N,
        SaveStream.collect scan fuel polls ready .new = some (.ok chunks)) ∧
      chunks.flatten = header ++ m.toList.flatMap (fun kv => recordBytes (kv.1, some kv.2)) ∧
      (∀ kv ∈ m.toList, encodeRecord kv.1 kv.2 = .ok (recordBytes (kv.1, some kv.2))) ∧
      (∃ groups, groups.flatten = m.toList ∧ chunks = frames groups) ∧
      ∀ (utf8Text : Bytes → String) (subs : Subscribers),
        (loadStream utf8Text ⟨SortedMap.empty, [], subs⟩ (chunks.map .ok)).1 =
          .ok m.toList.length ∧
        (loadStream utf8Text ⟨SortedMap.empty, [], subs⟩ (chunks.map .ok)).2.map = m := by
  obtain ⟨k, -, hk⟩ := hready 0
  obtain ⟨groups, chunks, N, hne, hflat, hframes, hcollect⟩ :=
    @collects _ _ hscan hsize (m.toList.length + 3) _ _ k _ _ _ _ _ (Streaming.start m) rfl rfl hk
      hready (Nat.lt_succ_self _)
  rw [List.nil_append] at hne hflat hframes
  have hchunks : chunks = frames groups := hframes.symm
  have hbytes : chunks.flatten = header ++ recordsBytes m.toList := by
    rw [hchunks, flatten_frames hne, hflat]
  have hencodes : Encodes chunks.flatten m.toList := ⟨hbytes, hsize⟩
  refine ⟨max N (m.toList.length + 3), chunks, ?_, hbytes, fun kv hkv => encodeRecord_eq (hsize kv hkv),
    ⟨groups, hflat, hchunks⟩, ?_⟩
  · intro fuel hfuel polls hpolls
    exact hcollect polls (le_trans (le_max_left _ _) hpolls) fuel
      (le_trans (le_max_right _ _) hfuel)
  · intro utf8Text subs
    have hload := @loadStream_eq utf8Text ⟨SortedMap.empty, [], subs⟩ rfl chunks
    refine ⟨hload.1.trans (verdict_eq_ok.mpr ⟨_, hencodes, rfl⟩), ?_⟩
    exact (hload.2.1 _ hencodes).trans (puts_toList m)

/-- A store of two keys, each read ready at its second poll. -/
theorem save_round_trip_two_keys :
    ∃ N chunks, (∀ fuel ≥ N, ∀ polls ≥ N, SaveStream.collect (fun limit d c =>
        .ok (BTreeStore.getsBytes ((SortedMap.empty.insert "a" [1]).insert "b" [2, 3]) limit d c))
          fuel polls (fun n => n % 2 = 1) .new = some (.ok chunks)) ∧
      chunks.flatten = [0x4f, 0x58, 0x4b, 0x56, 1, 0, 0, 0, 1, 0, 0, 0, 97, 1, 0, 0, 0, 1,
        1, 0, 0, 0, 98, 2, 0, 0, 0, 2, 3] ∧
      ∀ (utf8Text : Bytes → String) (subs : Subscribers),
        (loadStream utf8Text ⟨SortedMap.empty, [], subs⟩ (chunks.map .ok)).1 = .ok 2 := by
  have hready : ∀ n, ∃ k, n ≤ k ∧ (fun n => decide (n % 2 = 1)) k = true := fun n =>
    ⟨2 * n + 1, by omega, decide_eq_true (by omega)⟩
  obtain ⟨N, chunks, hcollect, hbytes, -, -, hload⟩ :=
    @save_round_trip _ ((SortedMap.empty.insert "a" [1]).insert "b" [2, 3])
      (fun limit d c => congrArg Except.ok (BTreeStore.getsBytes_eq _ limit d c))
      (by decide +kernel) _ hready
  refine ⟨N, chunks, hcollect, hbytes.trans (by decide +kernel), fun utf8Text subs => ?_⟩
  exact (hload utf8Text subs).1

end

end OxKv.Snapshot
