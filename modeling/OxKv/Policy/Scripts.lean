import OxKv.BTree.Typed
import OxKv.Engine.Calls
import OxKv.Snapshot.Load

/-!
Users of a store. A user is a `Script`: it chooses its next call from the replies so far.

* `Script.typedSet`, `Script.typedPut`: typed writes;
* `Script.load`: loading a snapshot in a transaction;
* `Script.run_ends`: what every call of a kind keeps, all scripts of such calls keep.
-/

namespace OxKv

/-- A user of a store with the calls `C`. -/
inductive Script (C : Type) where
  | done
  | call (c : C) (k : Reply → Script C)

namespace Script

variable {C τ : Type} {Act : Type → Type}

/-- Issue the calls of a script; the result lists them with their replies. -/
def run (step : τ → C → Prog Act (Reply × τ)) : Script C → τ → List (C × Reply) →
    Prog Act (List (C × Reply))
  | .done, _, seen => .ret seen
  | .call c k, txs, seen =>
    (step txs c).bind fun r => (k r.1).run step r.2 (seen ++ [(c, r.1)])

variable {M : Machine Act} {w : M.Who} {step : τ → C → Prog Act (Reply × τ)}

theorem run_front (s : Script C) (txs : τ) (seen : List (C × Reply)) (st : M.State) :
    M.Ends w (s.run step txs seen) (fun t _ => seen <+: t) st := by
  induction s generalizing txs seen st with
  | done => exact .ret (List.prefix_refl seen)
  | call c k ih =>
    refine .bind fun _ r _ st' _ => (ih r.1 r.2 _ st').mono fun t _ ht => ?_
    exact (List.prefix_append seen _).trans ht

/-- If every call with property `A` keeps the invariant and gets a reply in `R`, then in a
transcript of such calls all replies are in `R`. -/
theorem run_ends {J : M.State → Prop} {T : τ → Prop} {A : C → Prop} {R : C → Reply → Prop}
    (hstep : ∀ txs c, T txs → A c → M.Keeps J w (step txs c) fun r => R c r.1 ∧ T r.2)
    (s : Script C) {txs : τ} {seen : List (C × Reply)} {st : M.State} (htxs : T txs) (hst : J st)
    (hseen : ∀ x ∈ seen, R x.1 x.2) :
    M.Ends w (s.run step txs seen)
      (fun t _ => (∀ x ∈ t, A x.1) → ∀ x ∈ t, R x.1 x.2) st := by
  induction s generalizing txs seen st with
  | done => exact .ret fun _ => hseen
  | call c k ih =>
    by_cases hc : A c
    · refine .bind (((hstep txs c htxs hc).ends hst).mono fun r st' hr => ?_)
      refine ih r.1 hr.2.2 hr.1 fun x hx => ?_
      rcases List.mem_append.mp hx with hx | hx
      · exact hseen x hx
      · rw [List.mem_singleton.mp hx]
        exact hr.2.1
    · -- the call itself is in the transcript
      refine .bind fun _ r _ st' _ => (run_front (k r.1) r.2 _ st').mono fun t _ ht hall => ?_
      exact absurd (hall (c, r.1) (ht.subset (by simp))) hc

end Script

namespace Script

variable {C : Type}

/-! ## Typed writes -/

/-- `GetSetExt::put` over the `put_bytes` of a store. -/
def typedPut {T : Type} (codec : Codec T) (putBytes : Key → Bytes → C) (key : Key) (value : T)
    (k : Res Unit → Script C) : Script C :=
  match codec.toVec value with
  | .error msg => k (.error (.json msg))
  | .ok json =>
    .call (putBytes key json) fun
      | .done r => k r
      | _ => k (.error (.other "unexpected reply"))

/-- `GetSetExt::set` over the `set_bytes` of a store. -/
def typedSet {T : Type} (codec : Codec T) (setBytes : Key → Bytes → C) (key : Key) (value : T)
    (k : Res (Option T) → Script C) : Script C :=
  match codec.toVec value with
  | .error msg => k (.error (.json msg))
  | .ok json =>
    .call (setBytes key json) fun
      | .value (.ok none) => k (.ok none)
      | .value (.ok (some prev)) =>
        match codec.fromSlice prev with
        | .ok old => k (.ok (some old))
        | .error msg => k (.error (.json msg))
      | .value (.error e) => k (.error e)
      | _ => k (.error (.other "unexpected reply"))

/-! ## Loading a snapshot -/

section Load

open Snapshot

variable (utf8Text : Bytes → String) (setBytes : Key → Bytes → C) (abort : StoreError → Script C)

/-- The inner loop of `load_stream`; `k` goes on with the number of records so far. -/
def loadRecords (k : RecordDecoder → Nat → Script C) : Nat → RecordDecoder → Nat → Script C
  | 0, d, count => k d count
  | fuel + 1, d, count =>
    match d.nextRecord utf8Text with
    | .error e => abort e
    | .ok (none, d) => k d count
    | .ok (some (key, value), d) =>
      .call (setBytes key value) fun r =>
        match r.error? with
        | some e => abort e
        | none => loadRecords k fuel d (count + 1)

def loadChunks (k : RecordDecoder → Nat → Script C) :
    List (Res Bytes) → RecordDecoder → Nat → Script C
  | [], d, count => k d count
  | .error e :: _, _, _ => abort e
  | .ok chunk :: items, d, count =>
    let d := d.push chunk
    let rest (d : RecordDecoder) : Script C :=
      loadRecords utf8Text setBytes abort (fun d => loadChunks k items d.compact) d.buf.length d count
    if d.headerValidated then rest d
    else
      match d.validateHeader with
      | .error e => abort e
      | .ok (false, d) => loadChunks k items d count
      | .ok (true, d) => rest d

/-- `load_stream` with the calls of a transaction: its `set_bytes` and `commit`, and
`dropTx` for the transaction that is dropped after a failure. -/
def load (commit dropTx : C) (items : List (Res Bytes)) (k : Res Nat → Script C) : Script C :=
  let abort (e : StoreError) : Script C := .call dropTx fun _ => k (.error e)
  loadChunks utf8Text setBytes abort (fun d count =>
    if !d.headerValidated then abort truncatedHeader
    else if !d.isEmpty then abort truncatedRecord
    else .call commit fun r => k (match r.error? with
      | some e => .error e
      | none => .ok count)) items .new 0

end Load

end Script

end OxKv
