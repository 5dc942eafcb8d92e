import OxKv.BTree.Events

/-!
`RecordDecoder` and `load_stream`: a snapshot is decoded chunk by chunk and staged in one
transaction.

* `parse`: what the decoder has found in the bytes that arrived so far, as a function of
  these bytes alone;
* `Reached`: the decoder and the transaction between two chunks hold exactly that;
* `load_ignores_chunks`: so the result depends on the bytes only, and it is `Ok` for a
  header followed by whole records.
-/

namespace OxKv.Snapshot

/-! ## The code -/

/-- `SNAPSHOT_MAGIC`: ASCII `"OXKV"`. -/
def magic : Bytes := [0x4f, 0x58, 0x4b, 0x56]

/-- `SNAPSHOT_VERSION`. -/
def version : Nat := 1

/-- `SNAPSHOT_HEADER_LEN`. -/
def headerLen : Nat := magic.length + 4

/-- `write_snapshot_header`. -/
def header : Bytes := magic ++ u32le version

def missingMagic : StoreError := .serialization "not an oxkv snapshot: missing OXKV magic"

def unsupportedVersion (found : Nat) : StoreError :=
  .serialization ("unsupported oxkv snapshot version " ++ toString found ++
    " (this build reads version " ++ toString version ++ ")")

def truncatedHeader : StoreError := .serialization "Truncated snapshot header at end of input"

def truncatedRecord : StoreError := .serialization "Truncated record at end of input"

structure RecordDecoder where
  buf : Bytes
  pos : Nat
  headerValidated : Bool

namespace RecordDecoder

def new : RecordDecoder := ⟨[], 0, false⟩

def push (d : RecordDecoder) (chunk : Bytes) : RecordDecoder := { d with buf := d.buf ++ chunk }

/-- `&self.buf[self.pos..]`. -/
def avail (d : RecordDecoder) : Bytes := d.buf.drop d.pos

def isEmpty (d : RecordDecoder) : Bool := d.buf.length ≤ d.pos

def validateHeader (d : RecordDecoder) : Res (Bool × RecordDecoder) :=
  if magic.length ≤ d.avail.length ∧ d.avail.take magic.length ≠ magic then .error missingMagic
  else if d.avail.length < headerLen then .ok (false, d)
  else
    let found := readU32 (d.avail.drop magic.length)
    if found ≠ version then .error (unsupportedVersion found)
    else .ok (true, { d with pos := d.pos + headerLen, headerValidated := true })

/-- `next_record`; `utf8Text` is the text of a `Utf8Error`. -/
def nextRecord (utf8Text : Bytes → String) (d : RecordDecoder) :
    Res (Option KeyValue × RecordDecoder) :=
  let avail := d.avail
  if avail.length < 4 then .ok (none, d)
  else
    let keyLen := readU32 avail
    if avail.length < 4 + keyLen then .ok (none, d)
    else
      let valueStart := 4 + keyLen
      if avail.length < valueStart + 4 then .ok (none, d)
      else
        let valLen := readU32 (avail.drop valueStart)
        if avail.length < valueStart + 4 + valLen then .ok (none, d)
        else
          let keyPart := (avail.drop 4).take keyLen
          match keyOfBytes keyPart with
          | none => .error (.utf8Slice (utf8Text keyPart))
          | some key =>
            .ok (some (key, (avail.drop (valueStart + 4)).take valLen),
              { d with pos := d.pos + (valueStart + 4 + valLen) })

def compact (d : RecordDecoder) : RecordDecoder :=
  if 0 < d.pos ∧ d.buf.length ≤ d.pos * 2 then { d with buf := d.buf.drop d.pos, pos := 0 } else d

end RecordDecoder

structure Loading where
  decoder : RecordDecoder
  tx : BTreeTx
  count : Nat

section

variable (utf8Text : Bytes → String) (map : BTreeStore)

/-- The inner loop. The fuel bounds the number of records in the buffer. -/
def drain : Nat → Loading → Res Loading
  | 0, l => .ok l
  | fuel + 1, l =>
    match l.decoder.nextRecord utf8Text with
    | .error e => .error e
    | .ok (none, d) => .ok { l with decoder := d }
    | .ok (some (key, value), d) =>
      match l.tx.setBytes map key value with
      | (.error e, _) => .error e
      | (.ok _, tx) => drain fuel ⟨d, tx, l.count + 1⟩

/-- The part of the outer loop after the header check. -/
def drainAndCompact (l : Loading) : Res Loading :=
  match drain utf8Text map l.decoder.buf.length l with
  | .error e => .error e
  | .ok l => .ok { l with decoder := l.decoder.compact }

/-- One round of the outer loop. -/
def loadChunk (l : Loading) (chunk : Bytes) : Res Loading :=
  let d := l.decoder.push chunk
  if d.headerValidated then drainAndCompact utf8Text map { l with decoder := d }
  else
    match d.validateHeader with
    | .error e => .error e
    | .ok (false, d) => .ok { l with decoder := d }
    | .ok (true, d) => drainAndCompact utf8Text map { l with decoder := d }

/-- The outer loop. -/
def loadChunks : List (Res Bytes) → Loading → Res Loading
  | [], l => .ok l
  | .error e :: _, _ => .error e
  | .ok chunk :: items, l =>
    match loadChunk utf8Text map l chunk with
    | .error e => .error e
    | .ok l => loadChunks items l

end

/-- `load_stream` into a `BTreeStore`. A transaction that is dropped leaves no trace. -/
def loadStream (utf8Text : Bytes → String) (s : BTree) (items : List (Res Bytes)) :
    Res Nat × BTree :=
  match loadChunks utf8Text s.map items ⟨.new, s.beginTx, 0⟩ with
  | .error e => (.error e, s)
  | .ok l =>
    if !l.decoder.headerValidated then (.error truncatedHeader, s)
    else if !l.decoder.isEmpty then (.error truncatedRecord, s)
    else
      match l.tx.commit s with
      | (.error e, s) => (.error e, s)
      | (.ok (), s) => (.ok l.count, s)

/-! ## What the bytes so far contain -/

section

variable (utf8Text : Bytes → String)

/-- The first record of some bytes and what follows it; `none` while it is incomplete. -/
def takeEntry (data : Bytes) : Res (Option (KeyValue × Bytes)) :=
  if data.length < 4 ∨ data.length < 4 + readU32 data + 4 ∨
      data.length < 4 + readU32 data + 4 + readU32 (data.drop (4 + readU32 data)) then .ok none
  else
    match keyOfBytes ((data.drop 4).take (readU32 data)) with
    | none => .error (.utf8Slice (utf8Text ((data.drop 4).take (readU32 data))))
    | some key =>
      .ok (some ((key, (data.drop (4 + readU32 data + 4)).take
          (readU32 (data.drop (4 + readU32 data)))),
        data.drop (4 + readU32 data + 4 + readU32 (data.drop (4 + readU32 data)))))

theorem takeEntry_length {data rest : Bytes} {kv : KeyValue}
    (h : takeEntry utf8Text data = .ok (some (kv, rest))) : rest.length < data.length := by
  unfold takeEntry at h
  split at h
  · cases h
  · split at h
    · cases h
    · cases h
      rw [List.length_drop]
      omega

/-- The complete records at the front of some bytes, and the bytes after them. -/
def entries (data : Bytes) : Res (List KeyValue × Bytes) :=
  match _h : takeEntry utf8Text data with
  | .error e => .error e
  | .ok none => .ok ([], data)
  | .ok (some (kv, rest)) =>
    match entries rest with
    | .error e => .error e
    | .ok (kvs, rest) => .ok (kv :: kvs, rest)
termination_by data.length
decreasing_by exact takeEntry_length utf8Text _h

/-- The header check on the bytes so far. -/
def checkHeader (data : Bytes) : Res Bool :=
  if magic.length ≤ data.length ∧ data.take magic.length ≠ magic then .error missingMagic
  else if data.length < headerLen then .ok false
  else if readU32 (data.drop magic.length) ≠ version then
    .error (unsupportedVersion (readU32 (data.drop magic.length)))
  else .ok true

/-- The records found in the bytes so far and the bytes still waiting; `none` while the
header is incomplete. -/
def parse (data : Bytes) : Res (Option (List KeyValue × Bytes)) :=
  match checkHeader data with
  | .error e => .error e
  | .ok false => .ok none
  | .ok true => (entries utf8Text (data.drop headerLen)).map some

end

/-! ## More bytes -/

section

variable {utf8Text : Bytes → String}

variable {data : Bytes}

theorem readU32_append (h : 4 ≤ data.length) (more : Bytes) :
    readU32 (data ++ more) = readU32 data := by
  match data, h with
  | _ :: _ :: _ :: _ :: _, _ => rfl

/-- What follows a complete record does not matter to it. -/
theorem takeEntry_append (more : Bytes) (h : takeEntry utf8Text data ≠ .ok none) :
    takeEntry utf8Text (data ++ more) =
      (takeEntry utf8Text data).map (Option.map fun x => (x.1, x.2 ++ more)) := by
  unfold takeEntry at h ⊢
  split at h
  · exact absurd rfl h
  · rename_i hfit
    have h1 : 4 ≤ data.length := by omega
    have h2 : 4 + readU32 data + 4 ≤ data.length := by omega
    have hval : readU32 ((data ++ more).drop (4 + readU32 data)) =
        readU32 (data.drop (4 + readU32 data)) := by
      rw [List.drop_append_of_le_length (by omega)]
      exact readU32_append (by rw [List.length_drop]; omega) more
    have hkey : ((data ++ more).drop 4).take (readU32 data) = (data.drop 4).take (readU32 data) := by
      rw [List.drop_append_of_le_length h1,
        List.take_append_of_le_length (by rw [List.length_drop]; omega)]
    have hvalue : ((data ++ more).drop (4 + readU32 data + 4)).take
        (readU32 (data.drop (4 + readU32 data))) =
        (data.drop (4 + readU32 data + 4)).take (readU32 (data.drop (4 + readU32 data))) := by
      rw [List.drop_append_of_le_length h2,
        List.take_append_of_le_length (by rw [List.length_drop]; omega)]
    have hrest : (data ++ more).drop (4 + readU32 data + 4 +
        readU32 (data.drop (4 + readU32 data))) =
        data.drop (4 + readU32 data + 4 + readU32 (data.drop (4 + readU32 data))) ++ more :=
      List.drop_append_of_le_length (by omega)
    have hfit' : ¬ ((data ++ more).length < 4 ∨ (data ++ more).length < 4 + readU32 data + 4 ∨
        (data ++ more).length < 4 + readU32 data + 4 +
          readU32 (data.drop (4 + readU32 data))) := by
      rw [List.length_append]
      omega
    rw [readU32_append h1, hval, hkey, hvalue, hrest, if_neg hfit, if_neg hfit']
    cases keyOfBytes ((data.drop 4).take (readU32 data)) <;> rfl

theorem entries_eq (data : Bytes) :
    entries utf8Text data =
      match takeEntry utf8Text data with
      | .error e => .error e
      | .ok none => .ok ([], data)
      | .ok (some (kv, rest)) => (entries utf8Text rest).map fun x => (kv :: x.1, x.2) := by
  rw [entries]
  split <;> rename_i h <;> rw [h]
  rename_i rest
  dsimp only
  cases entries utf8Text rest <;> rfl

/-- Induction over the records of some bytes. -/
theorem takeEntry_induct (utf8Text : Bytes → String) {motive : Bytes → Prop}
    (step : ∀ data, (∀ kv rest, takeEntry utf8Text data = .ok (some (kv, rest)) → motive rest) →
      motive data) (data : Bytes) : motive data := by
  induction hn : data.length using Nat.strong_induction_on generalizing data with
  | h n ih =>
    subst hn
    exact step data fun kv rest h => ih _ (takeEntry_length utf8Text h) rest rfl

/-- Reading goes on where it stopped, and a refusal stands. -/
theorem entries_append (data more : Bytes) : entries utf8Text (data ++ more) =
    (entries utf8Text data).bind fun x =>
      (entries utf8Text (x.2 ++ more)).map fun y => (x.1 ++ y.1, y.2) := by
  induction data using takeEntry_induct utf8Text with
  | step data ih =>
    rw [entries_eq data]
    rcases htake : takeEntry utf8Text data with e | _ | ⟨kv, rest⟩
    · rw [entries_eq, takeEntry_append more (by rw [htake]; nofun), htake]
      rfl
    · dsimp only [Except.bind]
      cases entries utf8Text (data ++ more) <;> rfl
    · rw [entries_eq, takeEntry_append more (by rw [htake]; nofun), htake]
      dsimp only [Except.map, Option.map]
      rw [ih kv rest htake]
      rcases entries utf8Text rest with e | x
      · rfl
      · dsimp only [Except.bind]
        cases entries utf8Text (x.2 ++ more) <;> rfl

theorem checkHeader_append (more : Bytes) (h : checkHeader data ≠ .ok false) :
    checkHeader (data ++ more) = checkHeader data := by
  unfold checkHeader at h ⊢
  split at h
  · rename_i hbad
    have hmagic : magic.length ≤ (data ++ more).length ∧
        (data ++ more).take magic.length ≠ magic := by
      rw [List.length_append, List.take_append_of_le_length hbad.1]
      exact ⟨by omega, hbad.2⟩
    rw [if_pos hbad, if_pos hmagic]
  · rename_i hgood
    split at h
    · exact absurd rfl h
    · rename_i hlen
      have hlen' : ¬ (data ++ more).length < headerLen := by
        rw [List.length_append]
        omega
      have h8 : headerLen = magic.length + 4 := rfl
      have hmagic : ¬ (magic.length ≤ (data ++ more).length ∧
          (data ++ more).take magic.length ≠ magic) := by
        rw [List.take_append_of_le_length (by omega)]
        exact fun hbad => hgood ⟨by omega, hbad.2⟩
      have hversion : readU32 ((data ++ more).drop magic.length) =
          readU32 (data.drop magic.length) := by
        rw [List.drop_append_of_le_length (by omega)]
        exact readU32_append (by rw [List.length_drop]; omega) more
      rw [if_neg hgood, if_neg hlen, if_neg hmagic, if_neg hlen', hversion]

theorem headerLen_le (h : checkHeader data = .ok true) : headerLen ≤ data.length := by
  unfold checkHeader at h
  split at h
  · cases h
  · split at h
    · cases h
    · omega

theorem parse_some {rest : Bytes} {kvs : List KeyValue}
    (h : parse utf8Text data = .ok (some (kvs, rest))) :
    checkHeader data = .ok true ∧ entries utf8Text (data.drop headerLen) = .ok (kvs, rest) := by
  unfold parse at h
  rcases hcheck : checkHeader data with e | _ | _ <;> rw [hcheck] at h
  · cases h
  · cases h
  · rcases hentries : entries utf8Text (data.drop headerLen) with e | x <;> rw [hentries] at h
    · cases h
    · cases h
      exact ⟨rfl, rfl⟩

theorem parse_append (more : Bytes) (h : parse utf8Text data ≠ .ok none) :
    parse utf8Text (data ++ more) = (parse utf8Text data).bind (Option.elim · (.ok none) fun x =>
      (entries utf8Text (x.2 ++ more)).map fun y => some (x.1 ++ y.1, y.2)) := by
  unfold parse at h ⊢
  rcases hcheck : checkHeader data with e | _ | _
  · rw [checkHeader_append more (by rw [hcheck]; nofun), hcheck]
    rfl
  · rw [hcheck] at h
    exact absurd rfl h
  · rw [checkHeader_append more (by rw [hcheck]; nofun), hcheck]
    rw [List.drop_append_of_le_length (headerLen_le hcheck), entries_append]
    rcases entries utf8Text (data.drop headerLen) with e | x
    · rfl
    · dsimp only [Except.bind, Except.map, Option.elim]
      cases entries utf8Text (x.2 ++ more) <;> rfl

end

/-! ## The decoder -/

section

variable {utf8Text : Bytes → String}

namespace RecordDecoder

/-- The cursor is inside the buffer. -/
def Fits (d : RecordDecoder) : Prop := d.pos ≤ d.buf.length

variable {d : RecordDecoder}

theorem avail_push (h : d.Fits) (chunk : Bytes) : (d.push chunk).avail = d.avail ++ chunk :=
  List.drop_append_of_le_length h

theorem Fits.push (h : d.Fits) (chunk : Bytes) : (d.push chunk).Fits := by
  show d.pos ≤ (d.buf ++ chunk).length
  rw [List.length_append]
  exact Nat.le_add_right_of_le h

theorem isEmpty_iff (d : RecordDecoder) : d.isEmpty = true ↔ d.avail = [] := by
  simp [isEmpty, avail]

theorem compact_spec (h : d.Fits) :
    d.compact.Fits ∧ d.compact.avail = d.avail ∧ d.compact.headerValidated = d.headerValidated := by
  unfold compact
  split
  · exact ⟨Nat.zero_le _, rfl, rfl⟩
  · exact ⟨h, rfl, rfl⟩

def advance (d : RecordDecoder) (n : Nat) : RecordDecoder := { d with pos := d.pos + n }

theorem advance_spec {n : Nat} (h : n ≤ d.avail.length) (hfit : d.Fits) :
    (d.advance n).Fits ∧ (d.advance n).avail = d.avail.drop n := by
  have hlen : d.avail.length = d.buf.length - d.pos := List.length_drop
  unfold Fits at hfit
  refine ⟨?_, ?_⟩
  · show d.pos + n ≤ d.buf.length
    omega
  · show d.buf.drop (d.pos + n) = (d.buf.drop d.pos).drop n
    rw [List.drop_drop]

/-- `next_record` is `takeEntry` on the bytes at the cursor. -/
theorem nextRecord_eq :
    d.nextRecord utf8Text =
      match takeEntry utf8Text d.avail with
      | .error e => .error e
      | .ok none => .ok (none, d)
      | .ok (some (kv, _)) => .ok (some kv, d.advance (4 + readU32 d.avail + 4 +
          readU32 (d.avail.drop (4 + readU32 d.avail)))) := by
  unfold nextRecord takeEntry
  dsimp only
  split
  · rename_i h
    rw [if_pos (.inl h)]
  · split
    · rw [if_pos (by omega)]
    · split
      · rw [if_pos (by omega)]
      · split
        · rename_i h
          rw [if_pos (.inr (.inr h))]
        · rw [if_neg (by omega)]
          cases keyOfBytes ((d.avail.drop 4).take (readU32 d.avail)) <;> rfl

/-- `validate_header` is `checkHeader` on the bytes at the cursor. -/
theorem validateHeader_eq :
    d.validateHeader =
      match checkHeader d.avail with
      | .error e => .error e
      | .ok false => .ok (false, d)
      | .ok true => .ok (true, { d.advance headerLen with headerValidated := true }) := by
  unfold validateHeader checkHeader
  split
  · rfl
  · split
    · rfl
    · dsimp only
      split <;> rfl

end RecordDecoder

variable {kv : KeyValue} {data rest : Bytes}

theorem takeEntry_rest (h : takeEntry utf8Text data = .ok (some (kv, rest))) :
    4 + readU32 data + 4 + readU32 (data.drop (4 + readU32 data)) ≤ data.length ∧
      rest = data.drop (4 + readU32 data + 4 + readU32 (data.drop (4 + readU32 data))) := by
  unfold takeEntry at h
  split at h
  · cases h
  · split at h
    · cases h
    · cases h
      exact ⟨by omega, rfl⟩

/-! ## The loops -/

variable {map : BTreeStore}

def stageAll (map : BTreeStore) (tx : BTreeTx) (kvs : List KeyValue) : BTreeTx :=
  kvs.foldl (fun tx kv => (tx.setBytes map kv.1 kv.2).2) tx

variable {tx : BTreeTx}

theorem setBytes_unvalidated (h : tx.validators = []) (map : BTreeStore) (key : Key) (value : Bytes) :
    tx.setBytes map key value = (.ok (tx.getBytes map key),
      tx.record ⟨key, .set, tx.getBytes map key, some value⟩) := by
  rw [BTreeTx.setBytes, h]
  rfl

/-- The inner loop stages the complete records and stops in front of the rest. -/
theorem drain_eq (fuel : Nat) (l : Loading) (hfuel : l.decoder.avail.length ≤ fuel)
    (hfit : l.decoder.Fits) (hv : l.tx.validators = []) :
    match entries utf8Text l.decoder.avail with
    | .error e => drain utf8Text map fuel l = .error e
    | .ok (kvs, rest) => ∃ d : RecordDecoder, d.Fits ∧ d.avail = rest ∧
        d.headerValidated = l.decoder.headerValidated ∧
        drain utf8Text map fuel l = .ok ⟨d, stageAll map l.tx kvs, l.count + kvs.length⟩ := by
  induction fuel generalizing l with
  | zero =>
    have hnil : l.decoder.avail = [] := List.eq_nil_of_length_eq_zero (by omega)
    have hentries : entries utf8Text l.decoder.avail = .ok ([], l.decoder.avail) := by
      rw [entries_eq, hnil]
      rfl
    rw [hentries]
    exact ⟨l.decoder, hfit, rfl, rfl, rfl⟩
  | succ fuel ih =>
    rw [entries_eq, drain, RecordDecoder.nextRecord_eq]
    cases htake : takeEntry utf8Text l.decoder.avail with
    | error e => rfl
    | ok found =>
      match found with
      | none => exact ⟨l.decoder, hfit, rfl, rfl, rfl⟩
      | some (kv, rest) =>
        dsimp only
        obtain ⟨hlen, hrest⟩ := takeEntry_rest htake
        obtain ⟨hfit', havail⟩ := RecordDecoder.advance_spec hlen hfit
        rw [← hrest] at havail
        rw [setBytes_unvalidated hv]
        have hshort := takeEntry_length utf8Text htake
        have hnext := ih ⟨l.decoder.advance _,
          l.tx.record ⟨kv.1, .set, l.tx.getBytes map kv.1, some kv.2⟩, l.count + 1⟩
          (by rw [havail]; omega) hfit' hv
        rw [havail] at hnext
        rcases hentries : entries utf8Text rest with e | ⟨kvs, rest'⟩ <;> rw [hentries] at hnext
        · exact hnext
        · obtain ⟨d, hd, havail', hheader, hdrain⟩ := hnext
          refine ⟨d, hd, havail', hheader, ?_⟩
          have hcount : l.count + 1 + kvs.length = l.count + (kv :: kvs).length := by
            rw [List.length_cons]
            omega
          dsimp only
          rw [hdrain, stageAll, stageAll, List.foldl_cons, setBytes_unvalidated hv, ← hcount]

/-- The locals of `load_stream` hold what the bytes so far contain. -/
def Holds (map : BTreeStore) (tx : BTreeTx) (found : Option (List KeyValue × Bytes)) (seen : Bytes)
    (l : Loading) : Prop :=
  l.decoder.Fits ∧
    match found with
    | none => l.decoder.headerValidated = false ∧ l.decoder.avail = seen ∧ l.tx = tx ∧ l.count = 0
    | some (kvs, rest) => l.decoder.headerValidated = true ∧ l.decoder.avail = rest ∧
        l.tx = stageAll map tx kvs ∧ l.count = kvs.length

/-- Between two chunks: the loop has gone as far as the bytes so far allow, or failed as
they say. -/
def Reached (utf8Text : Bytes → String) (map : BTreeStore) (tx : BTreeTx) (seen : Bytes) :
    Res Loading → Prop
  | .error e => parse utf8Text seen = .error e
  | .ok l => ∃ found, parse utf8Text seen = .ok found ∧ Holds map tx found seen l

theorem stageAll_validators (h : tx.validators = []) (map : BTreeStore) (kvs : List KeyValue) :
    (stageAll map tx kvs).validators = [] := by
  induction kvs generalizing tx with
  | nil => exact h
  | cons kv kvs ih =>
    rw [stageAll, List.foldl_cons, setBytes_unvalidated h]
    exact ih h

variable {kvs : List KeyValue} {l : Loading} {seen : Bytes}

/-- The inner loop after the records `kvs`. -/
theorem drainAndCompact_reached (hv : tx.validators = []) (hfit : l.decoder.Fits)
    (hheader : l.decoder.headerValidated = true) (htx : l.tx = stageAll map tx kvs)
    (hcount : l.count = kvs.length) (hparse : parse utf8Text seen =
      (entries utf8Text l.decoder.avail).map fun x => some (kvs ++ x.1, x.2)) :
    Reached utf8Text map tx seen (drainAndCompact utf8Text map l) := by
  have hlen : l.decoder.avail.length ≤ l.decoder.buf.length := by
    rw [RecordDecoder.avail, List.length_drop]
    omega
  have hdrain := @drain_eq utf8Text map l.decoder.buf.length l hlen hfit
    (by rw [htx]; exact stageAll_validators hv map kvs)
  rw [drainAndCompact]
  cases hentries : entries utf8Text l.decoder.avail with
  | error e =>
    rw [hentries] at hdrain hparse
    rw [hdrain]
    exact hparse
  | ok x =>
    rw [hentries] at hdrain hparse
    obtain ⟨d, hd, havail, hvalid, heq⟩ := hdrain
    obtain ⟨hfit', havail', hvalid'⟩ := RecordDecoder.compact_spec hd
    rw [heq]
    refine ⟨_, hparse, hfit', ?_, havail'.trans havail, ?_, ?_⟩
    · exact hvalid'.trans (hvalid.trans hheader)
    · rw [htx, stageAll, stageAll, stageAll, List.foldl_append]
    · rw [hcount, List.length_append]

theorem loadChunk_reached (hv : tx.validators = []) (h : Reached utf8Text map tx seen (.ok l))
    (chunk : Bytes) : Reached utf8Text map tx (seen ++ chunk) (loadChunk utf8Text map l chunk) := by
  obtain ⟨found, hparse, hfit, hfound⟩ := h
  have hpush := RecordDecoder.avail_push hfit chunk
  unfold loadChunk
  match found with
  | some (kvs, rest) =>
    -- the header is behind the cursor
    obtain ⟨hheader, havail, htx, hcount⟩ := hfound
    rw [if_pos (show (l.decoder.push chunk).headerValidated = true from hheader)]
    refine drainAndCompact_reached hv (hfit.push chunk) hheader htx hcount ?_
    rw [hpush, havail, parse_append chunk (by rw [hparse]; nofun), hparse]
    rfl
  | none =>
    obtain ⟨hheader, havail, htx, hcount⟩ := hfound
    have hnot : ¬ (l.decoder.push chunk).headerValidated = true := by
      show ¬ l.decoder.headerValidated = true
      rw [hheader]
      exact nofun
    rw [if_neg hnot, RecordDecoder.validateHeader_eq, hpush, havail]
    cases hcheck : checkHeader (seen ++ chunk) with
    | error e =>
      show parse utf8Text (seen ++ chunk) = .error e
      rw [parse, hcheck]
    | ok b =>
      cases b with
      | false =>
        refine ⟨none, by rw [parse, hcheck], hfit.push chunk, hheader, ?_, htx, hcount⟩
        rw [hpush, havail]
      | true =>
        have hlen := headerLen_le hcheck
        rw [← havail, ← hpush] at hlen
        obtain ⟨hfit', hdrop⟩ := RecordDecoder.advance_spec hlen (hfit.push chunk)
        refine @drainAndCompact_reached _ _ _ [] _ _ hv hfit' rfl htx hcount ?_
        rw [parse, hcheck, show RecordDecoder.avail { (l.decoder.push chunk).advance headerLen with
          headerValidated := true } = _ from hdrop, hpush, havail]
        rfl

/-- All chunks: only their bytes matter. -/
theorem loadChunks_reached (hv : tx.validators = []) (h : Reached utf8Text map tx seen (.ok l))
    (chunks : List Bytes) :
    Reached utf8Text map tx (seen ++ chunks.flatten)
      (loadChunks utf8Text map (chunks.map .ok) l) := by
  induction chunks generalizing seen l with
  | nil =>
    rw [List.flatten_nil, List.append_nil]
    exact h
  | cons chunk chunks ih =>
    have hstep := loadChunk_reached hv h chunk
    rw [List.flatten_cons, ← List.append_assoc, List.map_cons, loadChunks]
    cases hload : loadChunk utf8Text map l chunk with
    | error e =>
      rw [hload] at hstep
      have hparse : parse utf8Text (seen ++ chunk) = .error e := hstep
      show parse utf8Text _ = .error e
      rw [parse_append _ (by rw [hparse]; nofun), hparse]
      rfl
    | ok l' =>
      rw [hload] at hstep
      exact ih hstep

/-! ## Whole snapshots -/

def recordsBytes (kvs : List KeyValue) : Bytes :=
  kvs.flatMap fun kv => recordBytes (kv.1, some kv.2)

/-- `b` is the header and these records, and nothing else. -/
def Encodes (b : Bytes) (kvs : List KeyValue) : Prop :=
  b = header ++ recordsBytes kvs ∧
    ∀ kv ∈ kvs, (keyBytes kv.1).length < 2 ^ 32 ∧ kv.2.length < 2 ^ 32

/-- A record that is taken was encoded. -/
theorem takeEntry_sound (h : takeEntry utf8Text data = .ok (some (kv, rest))) :
    data = recordBytes (kv.1, some kv.2) ++ rest ∧
      (keyBytes kv.1).length < 2 ^ 32 ∧ kv.2.length < 2 ^ 32 := by
  unfold takeEntry at h
  split at h
  · cases h
  · split at h
    · cases h
    · rename_i key hkey
      cases h
      have hkeyBytes := keyBytes_of_keyOfBytes hkey
      have hkeyLen : (keyBytes key).length = readU32 data := by
        rw [hkeyBytes, List.length_take, List.length_drop]
        omega
      have hvalLen : ((data.drop (4 + readU32 data + 4)).take
          (readU32 (data.drop (4 + readU32 data)))).length =
          readU32 (data.drop (4 + readU32 data)) := by
        rw [List.length_take, List.length_drop]
        omega
      refine ⟨?_, by rw [hkeyLen]; exact readU32_lt _, by rw [hvalLen]; exact readU32_lt _⟩
      rw [recordBytes, hkeyLen, hvalLen, hkeyBytes, u32le_readU32 (by omega),
        u32le_readU32 (by rw [List.length_drop]; omega)]
      simp only [List.append_assoc, ← List.drop_drop]
      rw [List.take_append_drop, List.take_append_drop, List.take_append_drop,
        List.take_append_drop]

/-- An encoded record is taken. -/
theorem takeEntry_recordBytes (hk : (keyBytes kv.1).length < 2 ^ 32) (hv : kv.2.length < 2 ^ 32)
    (rest : Bytes) :
    takeEntry utf8Text (recordBytes (kv.1, some kv.2) ++ rest) = .ok (some (kv, rest)) := by
  obtain ⟨key, value⟩ := kv
  dsimp only at hk hv ⊢
  have hdata : recordBytes (key, some value) ++ rest = u32le (keyBytes key).length ++
      (keyBytes key ++ (u32le value.length ++ (value ++ rest))) := by
    simp [recordBytes]
  have hklen : readU32 (recordBytes (key, some value) ++ rest) = (keyBytes key).length := by
    rw [hdata]
    exact readU32_u32le_append _ hk _
  have hvpart : (recordBytes (key, some value) ++ rest).drop (4 + (keyBytes key).length) =
      u32le value.length ++ (value ++ rest) := by
    rw [hdata, ← List.append_assoc]
    exact List.drop_left' (by simp)
  have hlen : (recordBytes (key, some value) ++ rest).length =
      4 + (keyBytes key).length + 4 + value.length + rest.length := by
    rw [hdata]
    simp only [List.length_append, length_u32le]
    omega
  have hkey : ((recordBytes (key, some value) ++ rest).drop 4).take (keyBytes key).length =
      keyBytes key := by
    rw [hdata, List.drop_left' (length_u32le _), List.take_left' rfl]
  unfold takeEntry
  rw [hklen, hvpart, readU32_u32le_append _ hv, hlen, if_neg (by omega), hkey,
    keyOfBytes_keyBytes]
  rw [← List.drop_drop, hvpart, List.drop_left' (length_u32le _), List.take_left' rfl,
    ← List.drop_drop, ← List.drop_drop, hvpart, List.drop_left' (length_u32le _),
    List.drop_left' rfl]

theorem entries_sound (h : entries utf8Text data = .ok (kvs, rest)) :
    data = recordsBytes kvs ++ rest ∧
      ∀ kv ∈ kvs, (keyBytes kv.1).length < 2 ^ 32 ∧ kv.2.length < 2 ^ 32 := by
  induction data using takeEntry_induct utf8Text generalizing kvs with
  | step data ih =>
    rw [entries_eq] at h
    rcases htake : takeEntry utf8Text data with e | _ | ⟨kv, next⟩ <;> rw [htake] at h
    · cases h
    · cases h
      exact ⟨rfl, nofun⟩
    · dsimp only at h
      rcases hnext : entries utf8Text next with e | x <;> rw [hnext] at h
      · cases h
      · cases h
        obtain ⟨hdata, hkv⟩ := takeEntry_sound htake
        obtain ⟨hrest, hall⟩ := ih kv next htake hnext
        refine ⟨?_, List.forall_mem_cons.mpr ⟨hkv, hall⟩⟩
        rw [hdata, hrest, recordsBytes, recordsBytes, List.flatMap_cons, List.append_assoc]

theorem entries_recordsBytes
    (h : ∀ kv ∈ kvs, (keyBytes kv.1).length < 2 ^ 32 ∧ kv.2.length < 2 ^ 32) :
    entries utf8Text (recordsBytes kvs) = .ok (kvs, []) := by
  induction kvs with
  | nil =>
    rw [entries_eq]
    rfl
  | cons kv kvs ih =>
    obtain ⟨hkv, hall⟩ := List.forall_mem_cons.mp h
    rw [entries_eq, recordsBytes, List.flatMap_cons, takeEntry_recordBytes hkv.1 hkv.2]
    dsimp only
    rw [show entries utf8Text (kvs.flatMap fun kv => recordBytes (kv.1, some kv.2)) = _ from ih hall]
    rfl

theorem checkHeader_eq_true : checkHeader data = .ok true ↔ ∃ rest, data = header ++ rest := by
  constructor
  · intro h
    have hlen := headerLen_le h
    have h8 : headerLen = magic.length + 4 := rfl
    unfold checkHeader at h
    split at h
    · cases h
    · rename_i hmagic
      split at h
      · cases h
      · split at h
        · cases h
        · rename_i hversion
          have hm : data.take magic.length = magic := by
            by_contra hne
            exact hmagic ⟨by omega, hne⟩
          have hv : readU32 (data.drop magic.length) = version := by
            by_contra hne
            exact hversion hne
          have h4 : u32le version = (data.drop magic.length).take 4 := by
            rw [← hv]
            exact u32le_readU32 (by rw [List.length_drop]; omega)
          refine ⟨(data.drop magic.length).drop 4, ?_⟩
          rw [header, h4, List.append_assoc, List.take_append_drop]
          nth_rewrite 1 [← hm]
          rw [List.take_append_drop]
  · rintro ⟨rest, rfl⟩
    rfl

/-- The bytes that are parsed to the end are the snapshots. -/
theorem parse_eq_complete {b : Bytes} :
    parse utf8Text b = .ok (some (kvs, [])) ↔ Encodes b kvs := by
  constructor
  · intro h
    obtain ⟨hcheck, hentries⟩ := parse_some h
    obtain ⟨rest, rfl⟩ := checkHeader_eq_true.mp hcheck
    rw [show (header ++ rest).drop headerLen = rest from List.drop_left' rfl] at hentries
    obtain ⟨hrest, hall⟩ := entries_sound hentries
    rw [List.append_nil] at hrest
    exact ⟨by rw [hrest], hall⟩
  · rintro ⟨rfl, hall⟩
    have hdrop : (header ++ recordsBytes kvs).drop headerLen = recordsBytes kvs :=
      List.drop_left' rfl
    rw [parse, checkHeader_eq_true.mpr ⟨_, rfl⟩]
    rw [hdrop, entries_recordsBytes hall]
    rfl

/-! ## The result of `load_stream` -/

def puts (kvs : List KeyValue) : List Op := kvs.map fun kv => (kv.1, some kv.2)

theorem applyAll_record (tx : BTreeTx) (map : BTreeStore) (e : ChangeEvent) :
    Plain.applyAll map (tx.record e).overlay.toList =
      (Plain.applyAll map tx.overlay.toList).apply e.op := by
  apply SortedMap.ext_get
  intro k
  have hinsert : (tx.record e).overlay.get? k =
      if k = e.key then some e.newValue else tx.overlay.get? k := SortedMap.get?_insert _ _ _ _
  rw [Plain.get?_applyAll_toList, Plain.get?_apply, Function.update_apply, hinsert,
    Plain.get?_applyAll_toList, ChangeEvent.op]
  by_cases hk : k = e.key
  · rw [if_pos hk, if_pos hk]
    rfl
  · rw [if_neg hk, if_neg hk]

/-- The overlay after the records: a later record of a key wins. -/
theorem applyAll_stageAll (hv : tx.validators = []) (map : BTreeStore) (kvs : List KeyValue) :
    Plain.applyAll map (stageAll map tx kvs).overlay.toList =
      Plain.applyAll (.applyAll map tx.overlay.toList) (puts kvs) := by
  induction kvs generalizing tx with
  | nil => rfl
  | cons kv kvs ih =>
    rw [stageAll, List.foldl_cons, setBytes_unvalidated hv]
    have hv' : (tx.record ⟨kv.1, .set, tx.getBytes map kv.1, some kv.2⟩).validators = [] := hv
    refine (ih hv').trans ?_
    rw [applyAll_record]
    rfl

theorem revalidate_unvalidated (hv : tx.validators = []) (map : BTreeStore)
    (events : List ChangeEvent) : tx.revalidate map events = .ok () := by
  induction events with
  | nil => rfl
  | cons e events ih =>
    rw [BTreeTx.revalidate, hv]
    split
    · exact ih
    · exact ih

/-- A commit without validators goes through. -/
theorem commit_unvalidated (hv : tx.validators = []) (s : BTree) :
    (tx.commit s).1 = .ok () ∧ (tx.commit s).2.map = Plain.applyAll s.map tx.overlay.toList := by
  rw [BTreeTx.commit, revalidate_unvalidated hv]
  obtain ⟨_, -, -, hmap⟩ := Publishes.notifyAll
    { s with map := BTreeTx.applyOverlay s.map tx.overlay.toList } tx.staged
  refine ⟨rfl, ?_⟩
  rw [hmap, BTreeTx.applyOverlay_eq]

/-- The result of `load_stream`, from the bytes alone. -/
def verdict (utf8Text : Bytes → String) (b : Bytes) : Res Nat :=
  match parse utf8Text b with
  | .error e => .error e
  | .ok none => .error truncatedHeader
  | .ok (some (kvs, [])) => .ok kvs.length
  | .ok (some (_, _ :: _)) => .error truncatedRecord

theorem verdict_eq_ok {b : Bytes} {n : Nat} :
    verdict utf8Text b = .ok n ↔ ∃ kvs, Encodes b kvs ∧ kvs.length = n := by
  unfold verdict
  constructor
  · intro h
    split at h
    · cases h
    · cases h
    · rename_i kvs hparse
      cases h
      exact ⟨kvs, parse_eq_complete.mp hparse, rfl⟩
    · cases h
  · rintro ⟨kvs, hb, rfl⟩
    rw [parse_eq_complete.mpr hb]

theorem loadStream_eq {s : BTree} (hv : s.validators = []) (chunks : List Bytes) :
    (loadStream utf8Text s (chunks.map .ok)).1 = verdict utf8Text chunks.flatten ∧
      (∀ kvs, Encodes chunks.flatten kvs →
        (loadStream utf8Text s (chunks.map .ok)).2.map = Plain.applyAll s.map (puts kvs)) ∧
      ((∃ e, verdict utf8Text chunks.flatten = .error e) →
        (loadStream utf8Text s (chunks.map .ok)).2 = s) := by
  have hstart : Reached utf8Text s.map s.beginTx [] (.ok ⟨.new, s.beginTx, 0⟩) :=
    ⟨none, rfl, Nat.le_refl _, rfl, rfl, rfl, rfl⟩
  have hend := loadChunks_reached hv hstart chunks
  rw [List.nil_append] at hend
  unfold loadStream verdict
  cases hload : loadChunks utf8Text s.map (chunks.map .ok) ⟨.new, s.beginTx, 0⟩ with
  | error e =>
    rw [hload] at hend
    have hparse : parse utf8Text chunks.flatten = .error e := hend
    rw [hparse]
    refine ⟨rfl, fun kvs hb => ?_, fun _ => rfl⟩
    rw [parse_eq_complete.mpr hb] at hparse
    cases hparse
  | ok l =>
    rw [hload] at hend
    obtain ⟨found, hparse, hfit, hfound⟩ := hend
    rw [hparse]
    match found with
    | none =>
      obtain ⟨hheader, -⟩ := hfound
      dsimp only
      rw [if_pos (by rw [hheader]; rfl)]
      refine ⟨rfl, fun kvs hb => ?_, fun _ => rfl⟩
      rw [parse_eq_complete.mpr hb] at hparse
      cases hparse
    | some (kvs, rest) =>
      obtain ⟨hheader, havail, htx, hcount⟩ := hfound
      cases rest with
      | cons x rest =>
        have hnot : l.decoder.isEmpty = false := by
          rw [← Bool.not_eq_true, RecordDecoder.isEmpty_iff, havail]
          exact nofun
        dsimp only
        rw [if_neg (by rw [hheader]; nofun), if_pos (by rw [hnot]; rfl)]
        refine ⟨rfl, fun kvs hb => ?_, fun _ => rfl⟩
        rw [parse_eq_complete.mpr hb] at hparse
        cases hparse
      | nil =>
        have hempty := (RecordDecoder.isEmpty_iff _).mpr havail
        have hv' : l.tx.validators = [] := by
          rw [htx]
          exact stageAll_validators hv s.map kvs
        obtain ⟨hok, hmap⟩ := commit_unvalidated hv' s
        dsimp only
        rw [if_neg (by rw [hheader]; nofun), if_neg (by rw [hempty]; nofun)]
        split
        · rename_i e s' hcommit
          rw [hcommit] at hok
          cases hok
        · rename_i s' hcommit
          rw [hcommit] at hmap
          refine ⟨congrArg Except.ok hcount, fun kvs' hb => ?_, ?_⟩
          · rw [parse_eq_complete.mpr hb] at hparse
            cases hparse
            exact hmap.trans (by rw [htx, applyAll_stageAll hv]; rfl)
          · rintro ⟨e, he⟩
            cases he

/-- Loading into a store without validators gives the same result for every way of
cutting the bytes into chunks: `Ok` with the number of records for a header followed by
complete records, which are then written in order, and otherwise an error that leaves
the store as it was. -/
theorem load_ignores_chunks (utf8Text : Bytes → String) (map : BTreeStore) (subs : Subscribers)
    (b : Bytes) :
    ∃ r : Res Nat, (∀ n, r = .ok n ↔ ∃ kvs, Encodes b kvs ∧ kvs.length = n) ∧
      ∀ chunks : List Bytes, chunks.flatten = b →
        (loadStream utf8Text ⟨map, [], subs⟩ (chunks.map .ok)).1 = r ∧
        (∀ kvs, Encodes b kvs →
          (loadStream utf8Text ⟨map, [], subs⟩ (chunks.map .ok)).2.map =
            Plain.applyAll map (puts kvs)) ∧
        ((∃ e, r = .error e) →
          (loadStream utf8Text ⟨map, [], subs⟩ (chunks.map .ok)).2 = ⟨map, [], subs⟩) := by
  refine ⟨verdict utf8Text b, fun n => verdict_eq_ok, ?_⟩
  rintro chunks rfl
  exact loadStream_eq rfl chunks

end

end OxKv.Snapshot
