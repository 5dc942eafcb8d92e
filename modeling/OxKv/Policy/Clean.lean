import OxKv.Engine.Calls
import OxKv.Format.SstContent

/-!
Where the key-value pairs of a store can be: MemTables, buffers and queues of the handles,
log files, SSTs, blobs and caches.

* `Policy`: which pairs may be there;
* `Policy.Clean`: a world in which every pair is allowed;
* `exec_clean`: an action that is given allowed pairs keeps such a world, and returns
  allowed pairs.
-/

namespace OxKv

/-- A set of pairs, none of whose values is mistaken for another or for a pointer. -/
structure Policy (cr : Crates) where
  ok : Key → Bytes → Prop
  plain : ∀ {k v}, ok k v → tryDecodeBlobPointer cr v = none
  length : ∀ {k v}, ok k v → v.length < tombstoneVlen
  inj : ∀ {k v k' v'}, ok k v → ok k' v' → cr.blobHash v = cr.blobHash v' → v = v'

/-- The log of the manifest lists log files. -/
def Manifest.LogsWals (m : Manifest) : Prop := ∀ id ∈ m.wal, ∃ e n, id = .wal e n

namespace Policy

variable {cr : Crates} (P : Policy cr)

/-! ## Allowed data -/

def Allows (op : Op) : Prop := ∀ v, op.2 = some v → P.ok op.1 v

/-- The bytes that stand for an allowed value in a file: the value or a pointer to its
blob. -/
def Stands (key : Key) (raw : Bytes) : Prop :=
  ∃ v, P.ok key v ∧
    (raw = v ∨ ∃ e, raw = encodeBlobPointer cr ⟨.blob e (cr.blobHash v), v.length, cr.crc32 v⟩)

def Row (op : Op) : Prop := ∀ raw, op.2 = some raw → P.Stands op.1 raw

def CleanFile (f : SstFile) : Prop :=
  ∃ m : MemMap, f.Holds cr.crc32 m ∧ ∀ op ∈ m.toList, P.Row op

def CleanObj (p : ObjectPath) : Obj → Prop
  | .manifest m => m.LogsWals
  | .ownership _ => True
  | .sst f => P.CleanFile f
  | .bytes b =>
    match p with
    | .wal _ _ => ∀ op ∈ decodeWalRecords b, P.Allows op
    | .blob _ hash => cr.blobHash b = hash ∧ ∃ k, P.ok k b
    | _ => True

def CleanWrite (pw : PendingWrite) : Prop :=
  P.ok pw.key pw.value ∧ encodeRecord pw.key pw.value = .ok pw.encoded

structure CleanInst (x : Inst) : Prop where
  mem : ∀ op ∈ x.mem.toList, P.Allows op
  buffer : ∀ op ∈ x.walBuffer, P.Allows op
  cache : ∀ m e, x.cache = some (m, e) → m.LogsWals
  files : ∀ p f, x.sstCache p = some f → P.CleanFile f
  pending : ∀ pw ∈ x.pending, P.CleanWrite pw

structure Clean (w : World) : Prop where
  objects : ∀ p x, w.st.lookup p = some x → P.CleanObj p x.1
  insts : ∀ i, P.CleanInst (w.inst i)

variable {P}

theorem Allows.row {op : Op} (h : P.Allows op) : P.Row op :=
  fun raw hraw => ⟨raw, h raw hraw, .inl rfl⟩

theorem allows_none (key : Key) : P.Allows (key, none) := nofun

/-! ## Worlds -/

theorem CleanInst.new (epoch : Nat) (session : String) (skip : Bool) :
    P.CleanInst (Inst.new epoch session skip) :=
  ⟨nofun, nofun, nofun, nofun, nofun⟩

theorem Clean.start : P.Clean World.start := by
  refine ⟨fun p x h => ?_, fun _ => .new 0 "" false⟩
  cases h

namespace Clean

variable {w : World}

theorem log (h : P.Clean w) (who : Who) (e : What) : P.Clean (w.log who e) := ⟨h.objects, h.insts⟩

theorem setInst (h : P.Clean w) (i : Nat) {x : Inst} (hx : P.CleanInst x) :
    P.Clean (w.setInst i x) :=
  ⟨h.objects, World.forall_setInst _ hx h.insts⟩

theorem insert (h : P.Clean w) {p : ObjectPath} {o : Obj} (ho : P.CleanObj p o) :
    P.Clean { w with st := w.st.insert p o } := by
  refine ⟨fun q x hx => ?_, h.insts⟩
  by_cases hq : q = p
  · subst hq
    cases (Storage.lookup_insert w.st q o).symm.trans hx
    exact ho
  · exact h.objects q x ((Storage.lookup_insert_ne w.st o hq).symm.trans hx)

theorem delete (h : P.Clean w) (p : ObjectPath) : P.Clean { w with st := w.st.delete p } := by
  refine ⟨fun q x hx => ?_, h.insts⟩
  by_cases hq : q = p
  · subst hq
    cases (Storage.lookup_delete w.st q).symm.trans hx
  · exact h.objects q x ((Storage.lookup_delete_ne w.st hq).symm.trans hx)

end Clean

/-! ## Actions -/

/-- What an action may be given. -/
def Takes (P : Policy cr) {β : Type} : Act β → Prop
  | .putOpts p o _ => P.CleanObj p o
  | .memInsert ops => ∀ op ∈ ops, P.Allows op
  | .memReplay ops => ∀ op ∈ ops, P.Allows op
  | .bufferPush op => P.Allows op
  | .bufferRestore ops => ∀ op ∈ ops, P.Allows op
  | .cacheUpdate m _ => m.LogsWals
  | .sstCacheInsert _ f => P.CleanFile f
  | .pushPending pw => P.CleanWrite pw
  | _ => True

/-- What an action may return. -/
def Gives (P : Policy cr) {β : Type} : Act β → β → Prop
  | .get p, r => ∀ x, r = .ok x → P.CleanObj p x.1
  | .getOpts p _, r => ∀ x, r = .ok x → P.CleanObj p x.1
  | .memGet key, r => ∀ hit, r = some hit → P.Allows (key, hit)
  | .memRows _ _, r => (∀ op ∈ r, P.Allows op) ∧ r.Pairwise fun a b => a.1 < b.1
  | .memSnapshot _, r => ∀ m, r = some m → ∀ op ∈ m.toList, P.Allows op
  | .bufferTake, r => ∀ op ∈ r, P.Allows op
  | .cacheGet _, r => ∀ m e, r.1 = some (m, e) → m.LogsWals
  | .sstCacheGet _, r => ∀ f, r = some f → P.CleanFile f
  | .drainPending _, r => ∀ pw ∈ r, P.CleanWrite pw
  | _, _ => True

theorem mem_of_mem_filterRows {m : MemMap} {d : Direction} {c : Cursor} {op : Op}
    (h : op ∈ filterRows m d c) : op ∈ m.toList := by
  cases d <;> exact (List.mem_filter.mp h).1

theorem filterRows_ascending (m : MemMap) (d : Direction) (c : Cursor) :
    (filterRows m d c).Pairwise fun a b => a.1 < b.1 := by
  cases d <;> exact m.ascending.filter _

theorem exec_clean {β : Type} {a : Act β} {who : Who} {c : Choice} {w w' : World} {r : β}
    (ha : P.Takes a) (hw : P.Clean w) (hx : exec who c a w = some (r, w')) :
    P.Clean w' ∧ P.Gives a r := by
  have hi := hw.insts who.inst
  cases a with
  | get p =>
    refine ⟨?_, fun x hr => hw.objects p x (exec_get_ok (hr ▸ hx))⟩
    rcases (exec_get_cases hx).1 with rfl | rfl
    · exact hw
    · exact hw.log ..
  | getOpts p etag =>
    refine ⟨?_, fun x hr => hw.objects p x (exec_getOpts_ok (hr ▸ hx))⟩
    rcases (exec_getOpts_cases hx).1 with rfl | rfl
    · exact hw
    · exact hw.log ..
  | putOpts p o mode =>
    refine ⟨?_, trivial⟩
    dsimp only [exec] at hx
    split at hx
    · cases hx
      exact hw
    · split at hx
      · rename_i hput
        obtain ⟨-, rfl, -⟩ := Storage.putOpts_ok hput
        cases hx
        exact (hw.insert ha).log who _
      · cases hx
        exact hw
  | delete p =>
    refine ⟨?_, trivial⟩
    dsimp only [exec] at hx
    split at hx
    · cases hx
      exact hw
    · cases hx
      exact hw.delete p
  | list =>
    dsimp only [exec] at hx
    split at hx <;> cases hx <;> exact ⟨hw, trivial⟩
  | memGet key =>
    cases hx
    refine ⟨hw, fun hit hhit => hi.mem (key, hit) ?_⟩
    exact ((w.inst who.inst).mem.mem_toList key hit).mpr hhit
  | memRows d cur =>
    cases hx
    exact ⟨hw.log .., fun op hop => hi.mem op (mem_of_mem_filterRows hop), filterRows_ascending ..⟩
  | memSnapshot force =>
    dsimp only [exec] at hx
    split at hx
    · cases hx
      exact ⟨hw, nofun⟩
    · split at hx
      · cases hx
        exact ⟨hw, nofun⟩
      · cases hx
        refine ⟨hw.log .., ?_⟩
        rintro _ ⟨⟩
        exact hi.mem
  | memInsert ops =>
    cases hx
    refine ⟨.log (hw.setInst _ ?_) _ _, trivial⟩
    exact { hi with mem := SortedMap.forall_mem_insertAll hi.mem ha }
  | memReplay ops =>
    cases hx
    exact ⟨hw.setInst _ { hi with mem := SortedMap.forall_mem_insertAll hi.mem ha }, trivial⟩
  | memDiscard snapshot =>
    cases hx
    refine ⟨hw.setInst _ { hi with mem := fun op hop => ?_ }, trivial⟩
    exact hi.mem op (List.mem_filter.mp hop).1
  | bufferPush op =>
    cases hx
    refine ⟨hw.setInst _ { hi with buffer := fun x hx => ?_ }, trivial⟩
    rcases List.mem_append.mp hx with hx | hx
    · exact hi.buffer x hx
    · cases List.mem_singleton.mp hx
      exact ha
  | bufferTake =>
    cases hx
    exact ⟨hw.setInst _ { hi with buffer := nofun }, hi.buffer⟩
  | bufferRestore ops =>
    cases hx
    refine ⟨hw.setInst _ { hi with buffer := fun x hx => ?_ }, trivial⟩
    exact (List.mem_append.mp hx).elim (ha x) (hi.buffer x)
  | cacheGet ttl =>
    cases hx
    refine ⟨hw, fun m e hm => ?_⟩
    split at hm
    · exact hi.cache m e hm
    · cases hm
  | cacheUpdate m etag =>
    cases hx
    refine ⟨hw.setInst _ { hi with cache := ?_ }, trivial⟩
    rintro _ _ ⟨⟩
    exact ha
  | cacheClear =>
    cases hx
    exact ⟨hw.setInst _ { hi with cache := nofun }, trivial⟩
  | sstCacheGet p =>
    cases hx
    refine ⟨hw, fun f hf => ?_⟩
    split at hf
    · exact hi.files p f hf
    · cases hf
  | sstCacheInsert p f =>
    cases hx
    refine ⟨hw.setInst _ { hi with files := fun q g hg => ?_ }, trivial⟩
    by_cases hq : q = p
    · subst hq
      cases (Function.update_self ..).symm.trans hg
      exact ha
    · exact hi.files q g ((Function.update_of_ne hq ..).symm.trans hg)
  | sstCacheRemove p =>
    cases hx
    refine ⟨hw.setInst _ { hi with files := fun q g hg => ?_ }, trivial⟩
    by_cases hq : q = p
    · subst hq
      cases (Function.update_self ..).symm.trans hg
    · exact hi.files q g ((Function.update_of_ne hq ..).symm.trans hg)
  | pushPending pw =>
    cases hx
    refine ⟨.log (hw.setInst _ ?_) _ _, trivial⟩
    refine { hi with pending := fun x hx => ?_ }
    rcases List.mem_append.mp hx with hx | hx
    · exact hi.pending x hx
    · cases List.mem_singleton.mp hx
      exact ha
  | drainPending max =>
    cases hx
    refine ⟨.log (hw.setInst _ ?_) _ _, fun x hx => hi.pending x (List.mem_of_mem_take hx)⟩
    exact { hi with pending := fun x hx => hi.pending x (List.mem_of_mem_drop hx) }
  | newHandle epoch session skip =>
    cases hx
    exact ⟨hw.setInst _ (.new ..), trivial⟩
  | send id res =>
    cases hx
    exact ⟨⟨hw.objects, hw.insts⟩, trivial⟩
  | nextPendingId =>
    cases hx
    exact ⟨⟨hw.objects, hw.insts⟩, trivial⟩
  | lockGate =>
    dsimp only [exec] at hx
    split at hx
    · cases hx
    · cases hx
      exact ⟨hw.setInst _ { hi with }, trivial⟩
  | unlockGate =>
    cases hx
    refine ⟨.log (hw.setInst _ ?_) _ _, trivial⟩
    exact { hi with }
  | recv id =>
    dsimp only [exec] at hx
    split at hx
    · cases hx
    · cases hx
      exact ⟨hw, trivial⟩
  | tryRecv id =>
    cases hx
    exact ⟨hw, trivial⟩
  | mark m =>
    cases hx
    exact ⟨hw.log .., trivial⟩
  | _ =>
    cases hx
    exact ⟨hw.setInst _ { hi with }, trivial⟩

end Policy

end OxKv
