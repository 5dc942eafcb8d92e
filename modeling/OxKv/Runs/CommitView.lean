import OxKv.Hooks.Staged
import OxKv.Runs.TxScans

/-!
The view that `commit` hands to validators while it validates the staged writes again.

A transaction over an unchanging store (`BTreeTx.Over`, `Tx.Over`) records for each key
that it writes the value from before the transaction. `commit_view_coherent`: the view of
such a key is the final state with that value put back exactly when the transaction leaves
the key as it was, since the scans of the view show the staged write.
-/

namespace OxKv

/-! ## Transactions of a `BTreeStore` -/

/-- A transaction over a map that does not change. -/
inductive BTreeTx.Over (map : BTreeStore) : BTreeTx → Prop
  | begin (validators : List Validator) : Over map ⟨SortedMap.empty, validators, []⟩
  | set {tx : BTreeTx} (h : Over map tx) (key : Key) (value : Bytes) :
    Over map (tx.setBytes map key value).2
  | delete {tx : BTreeTx} (h : Over map tx) (key : Key) : Over map (tx.delete map key).2

theorem BTreeTx.Over.staged {map : BTreeStore} {tx : BTreeTx} (h : Over map tx) :
    StagedOver map tx.overlay tx.staged := by
  induction h with
  | begin validators => exact .empty map
  | @set tx _ key value ih =>
    unfold BTreeTx.setBytes
    split
    · exact ih
    · exact ih.stage (BTreeTx.getBytes_eq tx map key)
  | @delete tx _ key ih =>
    unfold BTreeTx.delete
    dsimp only
    split
    · exact ih.stage (BTreeTx.getBytes_eq tx map key)
    · exact ih

theorem BTreeTx.view_answers (tx : BTreeTx) (map : BTreeStore) :
    (tx.view map).Answers (fun r a => r = .ok a) (.applyAll map tx.overlay.toList) where
  get k := congrArg Except.ok (BTreeTx.getBytes_eq tx map k)
  has k := congrArg Except.ok (BTreeTx.has_eq tx map k)
  getsBytes limit d c := congrArg Except.ok (BTreeTx.getsBytes_eq tx map limit d c)

/-! ## Transactions of an `OxKvStore` -/

section Layers

variable {cx : Ctx} {x : Layered cx.crates} {who : Who}

/-- A call of a transaction that returned, over layers that do not change. -/
def Layered.Returned {α : Type} (x : Layered cx.crates) (who : Who) (p : Io α) (a : α) : Prop :=
  ∃ o w o' w', (∀ n, Choice.fault (o n) = none) ∧ x.Serves who.inst w ∧
    engine.run who p o w = some (.ok a, o', w')

/-- Lone runs of a procedure over the layers end with this result. -/
def Layered.EndsWith {α : Type} (x : Layered cx.crates) (who : Who) (p : Io α) (r : Res α) : Prop :=
  engine.Returns (fun c => c.fault = none) (x.Serves who.inst) who p (· = r)

theorem Layered.Returned.meets {α : Type} {p : Io α} {a : α} {Q : Res α → Prop}
    (hr : x.Returned who p a)
    (h : engine.Returns (fun c => c.fault = none) (x.Serves who.inst) who p Q) : Q (.ok a) := by
  obtain ⟨o, w, o', w', ho, hw, hrun⟩ := hr
  obtain ⟨_, o1, w1, hrun1, -, -, hq⟩ := h o w ho hw
  rw [hrun] at hrun1
  cases hrun1
  exact hq

/-- A transaction over layers that do not change, with values that are no blob pointers. -/
inductive Tx.Over (cx : Ctx) (x : Layered cx.crates) (who : Who) : Tx → Prop
  | begin : Over cx x who Tx.begin
  | set {tx tx' : Tx} (h : Over cx x who tx) {key : Key} {value : Bytes} {prev : Option Bytes}
    (hvalue : tryDecodeBlobPointer cx.crates value = none)
    (hr : x.Returned who (txSetBytes cx tx key value) (prev, tx')) : Over cx x who tx'
  | put {tx tx' : Tx} (h : Over cx x who tx) {key : Key} {value : Bytes}
    (hvalue : tryDecodeBlobPointer cx.crates value = none)
    (hr : x.Returned who (txPutBytes cx tx key value) tx') : Over cx x who tx'
  | delete {tx tx' : Tx} (h : Over cx x who tx) {key : Key} {existed : Bool}
    (hr : x.Returned who (txDelete cx tx key) (existed, tx')) : Over cx x who tx'

variable {tx : Tx}

theorem Tx.PlainOverlay.record {cr : Crates} (h : tx.PlainOverlay cr) {e : ChangeEvent}
    (he : ∀ v, e.newValue = some v → tryDecodeBlobPointer cr v = none) :
    (tx.record e).PlainOverlay cr := by
  intro k v hget
  have hget : (tx.overlay.insert e.key e.newValue).get? k = some (some v) := hget
  rw [SortedMap.get?_insert] at hget
  split at hget
  · exact he v (Option.some.inj hget)
  · exact h k v hget

variable {value : Bytes} {key : Key}

theorem Tx.view_answers (htx : tx.PlainOverlay cx.crates) :
    (tx.view cx).Answers (fun p a => x.Gives who p (· = a))
      (x.contents.applyAll tx.overlay.toList) where
  get := Layered.txGetBytes_gives htx
  has := Layered.txHas_gives htx
  getsBytes _ _ _ := Layered.txGetsBytes_gives htx

/-- The verdict of validators that read a map. -/
def Check.verdict (m : Plain) : Check → Res Unit
  | .done r => r
  | .get key next => (next (.ok (m.get? key))).verdict m
  | .has key next => (next (.ok (m.get? key).isSome)).verdict m
  | .gets limit d c next => (next (.ok (m.gets limit d c))).verdict m

theorem Check.run_endsWith {view : StoreView Io} {m : Plain}
    (hview : view.Answers (fun p a => x.Gives who p (· = a)) m) (c : Check) :
    x.EndsWith who (c.run view) (c.verdict m) := by
  have attempt : ∀ {α : Type} {p : Io α} {a : α} {f : Res α → Io Unit} {r : Res Unit},
      x.Gives who p (· = a) → x.EndsWith who (f (.ok a)) r →
      x.EndsWith who (Io.attempt p >>= f) r := by
    intro α p a f r hp hf
    have hlook : x.Gives who (Io.attempt p) (· = .ok a) := by
      refine Machine.Returns.bind hp ?_
      rintro _ ⟨_, rfl, rfl⟩
      exact .ret ⟨_, rfl, rfl⟩
    refine Machine.Returns.bind hlook ?_
    rintro _ ⟨_, rfl, rfl⟩
    exact hf
  induction c with
  | done r => exact .ret rfl
  | get k next ih => exact attempt (hview.get k) (ih _)
  | has k next ih => exact attempt (hview.has k) (ih _)
  | gets limit d c next ih => exact attempt (hview.getsBytes limit d c) (ih _)

section PlainOverlay

variable (htx : tx.PlainOverlay cx.crates)

include htx

/-- A write that the validators accept in the state of the transaction records the value
before it. -/
theorem txSetBytes_endsWith (key : Key) (value : Bytes) :
    let m := x.contents.applyAll tx.overlay.toList
    x.EndsWith who (txSetBytes cx tx key value) (((cx.check key value).verdict m).map fun _ =>
      (m.get? key, tx.record ⟨key, .set, m.get? key, some value⟩)) := by
  refine Machine.Returns.bind (Check.run_endsWith (Tx.view_answers htx) _) ?_
  rintro _ rfl
  cases (cx.check key value).verdict (x.contents.applyAll tx.overlay.toList) with
  | error e => exact .ret rfl
  | ok _ =>
    refine Machine.Returns.bind (Layered.txGetBytes_gives htx key) ?_
    rintro _ ⟨_, rfl, rfl⟩
    exact .ret rfl

theorem txSetBytes_returned {tx' : Tx} {prev : Option Bytes}
    (hr : x.Returned who (txSetBytes cx tx key value) (prev, tx')) :
    tx' = tx.record ⟨key, .set, (x.contents.applyAll tx.overlay.toList).get? key, some value⟩ := by
  have h := hr.meets (txSetBytes_endsWith htx key value)
  generalize (cx.check key value).verdict _ = v at h
  cases v <;> cases h
  rfl

theorem txPutBytes_returned {tx' : Tx} (hr : x.Returned who (txPutBytes cx tx key value) tx') :
    tx' = tx.record ⟨key, .set, (x.contents.applyAll tx.overlay.toList).get? key, some value⟩ := by
  have hput : x.EndsWith who (txPutBytes cx tx key value)
      (((cx.check key value).verdict (x.contents.applyAll tx.overlay.toList)).map fun _ =>
        tx.record ⟨key, .set, (x.contents.applyAll tx.overlay.toList).get? key, some value⟩) := by
    refine Machine.Returns.bind (txSetBytes_endsWith htx key value) ?_
    rintro _ rfl
    cases (cx.check key value).verdict (x.contents.applyAll tx.overlay.toList) <;> exact .ret rfl
  have h := hr.meets hput
  generalize (cx.check key value).verdict _ = v at h
  cases v <;> cases h
  rfl

theorem txDelete_returned {tx' : Tx} {existed : Bool}
    (hr : x.Returned who (txDelete cx tx key) (existed, tx')) :
    tx' = tx ∨
    tx' = tx.record ⟨key, .delete, (x.contents.applyAll tx.overlay.toList).get? key, none⟩ := by
  have hgives : x.Gives who (txDelete cx tx key) fun r => r.2 = tx ∨ r.2 =
      tx.record ⟨key, .delete, (x.contents.applyAll tx.overlay.toList).get? key, none⟩ := by
    refine (Layered.txGetBytes_gives htx key).bind ?_
    rintro _ rfl
    cases hget : (x.contents.applyAll tx.overlay.toList).get? key with
    | none => exact .pure (.inl rfl)
    | some old => exact .pure (.inr rfl)
  obtain ⟨_, heq, hor⟩ := hr.meets hgives
  cases heq
  exact hor

end PlainOverlay

theorem Tx.Over.staged (h : Tx.Over cx x who tx) :
    StagedOver x.contents tx.overlay tx.staged ∧ tx.PlainOverlay cx.crates := by
  induction h with
  | begin => exact ⟨.empty _, fun k v hget => by cases hget⟩
  | set _ hvalue hr ih =>
    rw [txSetBytes_returned ih.2 hr]
    exact ⟨ih.1.stage rfl, ih.2.record fun v hv => Option.some.inj hv ▸ hvalue⟩
  | put _ hvalue hr ih =>
    rw [txPutBytes_returned ih.2 hr]
    exact ⟨ih.1.stage rfl, ih.2.record fun v hv => Option.some.inj hv ▸ hvalue⟩
  | delete _ hr ih =>
    rcases txDelete_returned ih.2 hr with rfl | rfl
    · exact ih
    · exact ⟨ih.1.stage rfl, ih.2.record nofun⟩

end Layers

/-! ## The view of `commit` -/

/-- The view of every staged key. -/
theorem commit_view_coherent (base : BTreeStore) (btx : BTreeTx) (cx : Ctx)
    (x : Layered cx.crates) (who : Who) (w : World) (tx : Tx) :
    (btx.Over base → ∀ e ∈ btx.staged,
      ((revalidateView (btx.view base) e.key e.oldValue).Answers (fun r a => r = .ok a)
          ((Plain.applyAll base btx.overlay.toList).apply (e.key, base.get? e.key)) ↔
        (Plain.applyAll base btx.overlay.toList).get? e.key = base.get? e.key)) ∧
    (x.Serves who.inst w → Tx.Over cx x who tx → ∀ e ∈ tx.staged,
      ((revalidateView (tx.view cx) e.key e.oldValue).Answers (fun p a => x.Gives who p (· = a))
          ((x.contents.applyAll tx.overlay.toList).apply (e.key, x.contents.get? e.key)) ↔
        (x.contents.applyAll tx.overlay.toList).get? e.key = x.contents.get? e.key)) := by
  constructor
  · intro htx e he
    rw [htx.staged.old e he]
    exact revalidateView_answers (fun _ => rfl) (fun ha hb => Except.ok.inj (ha.symm.trans hb))
      (btx.view_answers base) e.key (base.get? e.key)
  · intro hw htx e he
    obtain ⟨hstaged, hplain⟩ := htx.staged
    rw [hstaged.old e he]
    refine revalidateView_answers (fun a => .pure rfl) (fun ha hb => ?_)
      (Tx.view_answers hplain) e.key (x.contents.get? e.key)
    obtain ⟨r, o', w', hrun, -, -, a', rfl, rfl⟩ := ha (fun _ => ⟨none, true⟩) w (fun _ => rfl) hw
    obtain ⟨r, o'', w'', hrun', -, -, b', rfl, rfl⟩ := hb (fun _ => ⟨none, true⟩) w (fun _ => rfl) hw
    rw [hrun] at hrun'
    cases hrun'
    rfl

def rewriteBase : BTreeStore := SortedMap.empty.insert "a" [1]

/-- A write of the value that the key has. -/
def rewriteTx : BTreeTx := (BTreeTx.setBytes ⟨SortedMap.empty, [], []⟩ rewriteBase "a" [1]).2

theorem commit_view_coherent_rewrite :
    (revalidateView (rewriteTx.view rewriteBase) "a" (some [1])).Answers (fun r a => r = .ok a)
        ((Plain.applyAll rewriteBase rewriteTx.overlay.toList).apply ("a", some [1])) ∧
      ∃ f tx, buildSst crc32 (sampleLayers.table (.sst 1 0 1)) 4096 = .ok f ∧
        sampleLayers.Serves 0 (layeredWorld f) ∧
        (revalidateView (Tx.view sampleCtx tx) "a"
          (some [1])).Answers (fun p a => sampleLayers.Gives ⟨0, 0⟩ p (· = a))
          ((sampleLayers.contents.applyAll tx.overlay.toList).apply ("a", some [1])) := by
  obtain ⟨f, hf, hserves⟩ := exists_layeredWorld
  have hbegin : Tx.begin.PlainOverlay referenceCrates := fun k v hget => by cases hget
  obtain ⟨_, o', w', hrun, -, -, rfl⟩ :=
    @txSetBytes_endsWith sampleCtx sampleLayers ⟨0, 0⟩ Tx.begin hbegin "a" [1]
      (fun _ => ⟨none, true⟩) (layeredWorld f) (fun _ => rfl) hserves
  have hover : Tx.Over sampleCtx sampleLayers ⟨0, 0⟩
      (Tx.begin.record ⟨"a", .set, some [1], some [1]⟩) :=
    .set .begin (by decide +kernel)
      ⟨fun _ => ⟨none, true⟩, layeredWorld f, o', w', fun _ => rfl, hserves, hrun⟩
  have hview := commit_view_coherent rewriteBase rewriteTx sampleCtx sampleLayers ⟨0, 0⟩
    (layeredWorld f) (Tx.begin.record ⟨"a", .set, some [1], some [1]⟩)
  have hmap := (hview.1 (.set (.begin []) "a" [1]) ⟨"a", .set, some [1], some [1]⟩
    (by decide)).mpr (by decide)
  have hlayers := (hview.2 hserves hover ⟨"a", .set, some [1], some [1]⟩
    (by decide)).mpr (by decide)
  exact ⟨hmap, f, _, hf, hserves, hlayers⟩

/-- An insert: the view does not have the key, and its scan lists it. -/
theorem commit_view_lists_insert :
    let tx := (BTreeTx.setBytes ⟨SortedMap.empty, [], []⟩ SortedMap.empty "k" [1]).2
    let view := revalidateView (tx.view SortedMap.empty) "k" none
    tx.Over SortedMap.empty ∧ ⟨"k", .set, none, some [1]⟩ ∈ tx.staged ∧
      view.get "k" = .ok none ∧ view.has "k" = .ok false ∧
      view.getsBytes none .next (none, none) = .ok [("k", [1])] :=
  ⟨.set (.begin []) "k" [1], by decide, by decide, by decide, by decide⟩

end OxKv
