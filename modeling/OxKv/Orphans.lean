import OxKv.Engine.Maintain

/-!
The orphan sweep on the keys of a whole bucket, in which other stores may live beside, above and
below the prefix of this one.

The model of the engine keeps structured paths below one prefix. Here keys are texts, as the
storage lists them: `gc_orphans` strips the prefix and decides from the shape of the rest.

* `isOrphanWalKey_iff`, `orphan_key_iff`: the shape check against the keys that stores write;
* `lookup_sweep`: what the delete loop leaves;
* `sweep_exact_iff`: the sweep reclaims the unlisted WAL objects unless a number has nine digits.
-/

namespace OxKv.Bucket

/-! ## The code -/

abbrev Name := List Char

def child (path segment : Name) : Name := if path = [] then segment else path ++ '/' :: segment

/-- The key of an object of the store under `root`: `wal_path`, `sst_path`, `blob_path`,
`manifest_path`, `ownership_path` and `probe_path`. -/
def key (root : Name) (p : ObjectPath) : Name := child root p.name.toList

def isOrphanWalKey (relative : Name) : Bool :=
  match relative.splitOn '/' with
  | [epoch, kind, file] =>
    kind = "wal".toList && match ['e'].isPrefixOf? epoch, ".log".toList.isSuffixOf? file with
      | some digits, some seq =>
        6 ≤ digits.length && digits.all Char.isDigit && (seq.length = 8 && seq.all Char.isDigit)
      | _, _ => false
  | _ => false

/-- What the bytes of an object decode to. -/
inductive Content where
  | ownership (r : OwnershipRecord)
  | manifest (wal : List Name)
  | data
  deriving DecidableEq

abbrev Objects := AList fun _ : Name => Content

def underPrefix (key root : Name) : Bool :=
  if root.isEmpty then true
  else
    match root.isPrefixOf? key with
    | some rest => rest.isEmpty || rest.head? = some '/'
    | none => false

def list (b : Objects) (root : Name) : List Name :=
  (b.keys.filter (underPrefix · root)).insertionSort fun x y => String.ofList x ≤ String.ofList y

/-- The delete loop of `gc_orphans_inner`. -/
def sweep (root : Name) (listed : List Name) : List Name → Nat × Objects → Nat × Objects
  | [], x => x
  | key :: keys, (deleted, b) =>
    match root.isPrefixOf? key with
    | none => sweep root listed keys (deleted, b)
    | some relative =>
      if !isOrphanWalKey ((['/'].isPrefixOf? relative).getD relative) then
        sweep root listed keys (deleted, b)
      else if listed.contains key then sweep root listed keys (deleted, b)
      else sweep root listed keys (deleted + 1, b.erase key)

/-- `gc_orphans_inner` of the session with this record, alone and without storage failures. A
lifetime of zero leaves the manifest cache out. -/
def gcOrphansInner (root : Name) (r : OwnershipRecord) (b : Objects) : Res (Nat × Objects) :=
  match b.lookup (key root .ownership) with
  | none => .ok (0, b)
  | some (.ownership cur) =>
    if cur = r then
      match b.lookup (key root .manifest) with
      | none => .ok (sweep root [] (list b root) (0, b))
      | some (.manifest wal) => .ok (sweep root wal (list b root) (0, b))
      | some _ => .error (.storage "parse manifest: unexpected object")
    else .ok (0, b)
  | some _ => .error (.storage "corrupt ownership.json: unexpected object")

/-! ## Numbers -/

theorem toList_padded (w n : Nat) : (padded w n).toList =
    List.replicate (w - (Nat.toDigits 10 n).length) '0' ++ Nat.toDigits 10 n := by
  simp [padded, Nat.repr_eq_ofList_toDigits]

theorem isDigit_padded {w n : Nat} {c : Char} (h : c ∈ (padded w n).toList) : c.isDigit = true := by
  rw [toList_padded, List.mem_append] at h
  rcases h with h | h
  · rw [List.eq_of_mem_replicate h]
    rfl
  · exact Nat.isDigit_of_mem_toDigits (by decide) (by decide) h

theorem length_padded (w n : Nat) :
    (padded w n).toList.length = max w (Nat.toDigits 10 n).length := by
  simp [toList_padded]
  omega

theorem length_padded_eq_iff {w n : Nat} (h : 0 < w) :
    (padded w n).toList.length = w ↔ n < 10 ^ w := by
  rw [length_padded, ← Nat.length_toDigits_le_iff (by decide) h]
  omega

/-! ## Segments -/

def segments : ObjectPath → List Name
  | .ownership => ["ownership.json".toList]
  | .manifest => ["manifest.json".toList]
  | .canary => ["probe".toList, "canary".toList]
  | .wal epoch seq =>
    [(formatEpoch epoch).toList, "wal".toList, (padded 8 seq).toList ++ ".log".toList]
  | .sst epoch level num => [(formatEpoch epoch).toList, "sst".toList,
      'L' :: (toString level).toList, (padded 9 num).toList ++ ".sst".toList]
  | .blob epoch hash => [(formatEpoch epoch).toList, "blob".toList, hash.toList]

/-- The names of blobs are hexadecimal. -/
def Plain : ObjectPath → Prop
  | .blob _ hash => '/' ∉ hash.toList
  | _ => True

theorem slash_not_mem_padded (w n : Nat) : '/' ∉ (padded w n).toList := fun h => by
  cases isDigit_padded h

theorem splitOn_name {p : ObjectPath} (h : Plain p) : p.name.toList.splitOn '/' = segments p := by
  have hname : p.name.toList = ['/'].intercalate (segments p) := by
    cases p <;> simp [ObjectPath.name, segments, List.intercalate, List.intersperse, formatEpoch]
  rw [hname]
  refine List.splitOn_intercalate _ ?_ (by cases p <;> simp [segments])
  have hlevel : ∀ n : Nat, '/' ∉ (toString n).toList := fun n hn => by
    rw [Nat.toString_eq_repr, Nat.repr_eq_ofList_toDigits, String.toList_ofList] at hn
    cases Nat.isDigit_of_mem_toDigits (by decide) (by decide) hn
  cases p <;> simp_all [segments, formatEpoch, slash_not_mem_padded, Plain]

/-- The segments above a name. -/
def above (root : Name) : List Name := if root = [] then [] else root.splitOn '/'

theorem splitOn_child (root x : Name) :
    (child root x).splitOn '/' = above root ++ x.splitOn '/' := by
  unfold child above
  split
  · rfl
  · exact List.splitOn_append_cons_self ..

theorem splitOn_slash (x : Name) : ('/' :: x).splitOn '/' = [[]] ++ x.splitOn '/' :=
  List.splitOn_append_cons_self [] x

theorem splitOn_inj {x y : Name} (h : x.splitOn '/' = y.splitOn '/') : x = y := by
  have hjoin := congrArg (['/'].intercalate ·) h
  rwa [List.intercalate_splitOn, List.intercalate_splitOn] at hjoin

theorem isSuffixOf?_iff {x y z : Name} : x.isSuffixOf? y = some z ↔ z ++ x = y := by
  rw [List.isSuffixOf?, Option.map_eq_some_iff]
  simp only [List.isPrefixOf?_eq_some_iff_append_eq]
  constructor
  · rintro ⟨w, hw, rfl⟩
    rw [← List.reverse_inj, ← hw]
    simp
  · rintro rfl
    exact ⟨z.reverse, by simp, by simp⟩

theorem isOrphanWalKey_iff {relative : Name} : isOrphanWalKey relative = true ↔
    ∃ digits seq : Name, relative.splitOn '/' =
        ['e' :: digits, "wal".toList, seq ++ ".log".toList] ∧
      (6 ≤ digits.length ∧ ∀ c ∈ digits, c.isDigit = true) ∧
      seq.length = 8 ∧ ∀ c ∈ seq, c.isDigit = true := by
  unfold isOrphanWalKey
  constructor
  · intro h
    split at h
    · rename_i epoch kind file hsplit
      simp only [Bool.and_eq_true, decide_eq_true_eq] at h
      obtain ⟨rfl, h⟩ := h
      split at h
      · rename_i digits seq hdigits hseq
        rw [List.isPrefixOf?_eq_some_iff_append_eq] at hdigits
        rw [isSuffixOf?_iff] at hseq
        simp only [Bool.and_eq_true, decide_eq_true_eq, List.all_eq_true] at h
        exact ⟨digits, seq, by rw [hsplit, ← hdigits, ← hseq]; rfl, h⟩
      · cases h
    · cases h
  · rintro ⟨digits, seq, hsplit, hdigits, hseq⟩
    have hsuffix : ".log".toList.isSuffixOf? (seq ++ ".log".toList) = some seq :=
      isSuffixOf?_iff.mpr rfl
    have hfront : ['e'].isPrefixOf? ('e' :: digits) = some digits :=
      List.isPrefixOf?_eq_some_iff_append_eq.mpr rfl
    simp only [hsplit, hsuffix, hfront]
    simpa using ⟨hdigits, hseq⟩

/-! ## Orphans -/

/-- The shape check of the delete loop on a listed key. -/
def orphan (root key : Name) : Bool :=
  match root.isPrefixOf? key with
  | none => false
  | some relative => isOrphanWalKey ((['/'].isPrefixOf? relative).getD relative)

theorem sweep_cons (root : Name) (listed : List Name) (key : Name) (keys : List Name) (n : Nat)
    (b : Objects) : sweep root listed (key :: keys) (n, b) =
      if orphan root key = true ∧ key ∉ listed then sweep root listed keys (n + 1, b.erase key)
      else sweep root listed keys (n, b) := by
  rw [sweep, orphan]
  cases root.isPrefixOf? key with
  | none => simp
  | some relative =>
    cases h : isOrphanWalKey ((['/'].isPrefixOf? relative).getD relative) <;> simp [h]

theorem lookup_sweep (root : Name) (listed keys : List Name) (n : Nat) (b : Objects) (k : Name) :
    (sweep root listed keys (n, b)).2.lookup k =
      if k ∈ keys ∧ orphan root k = true ∧ k ∉ listed then none else b.lookup k := by
  induction keys generalizing n b with
  | nil => simp [sweep]
  | cons key keys ih =>
    rw [sweep_cons]
    by_cases hk : k = key
    · subst hk
      split
      · rename_i h
        rw [ih, AList.lookup_erase, ite_self, if_pos ⟨List.mem_cons_self, h⟩]
      · rename_i h
        rw [ih, if_neg fun hin => h hin.2, if_neg fun hin => h hin.2]
    · have herase : (b.erase key).lookup k = b.lookup k := AList.lookup_erase_ne hk
      split <;> simp [ih, hk, herase]

/-- A listed key that passes the check, and the name that was checked. -/
theorem orphan_iff {root k : Name} : (underPrefix k root = true ∧ orphan root k = true) ↔
    ∃ x, isOrphanWalKey x = true ∧ (k = child root x ∨ root = [] ∧ k = '/' :: x) := by
  unfold orphan underPrefix child
  constructor
  · rintro ⟨hunder, horphan⟩
    cases hroot : root.isPrefixOf? k with
    | none => simp [hroot] at horphan
    | some rest =>
      simp only [hroot] at hunder horphan
      rw [List.isPrefixOf?_eq_some_iff_append_eq] at hroot
      subst hroot
      rcases rest with _ | ⟨c, x⟩
      · cases horphan
      by_cases hc : c = '/'
      · subst hc
        refine ⟨x, by simpa [List.isPrefixOf?] using horphan, ?_⟩
        by_cases hnil : root = [] <;> simp [hnil]
      · have hnil : root = [] := by
          by_contra hne
          simp [hne, hc] at hunder
        refine ⟨c :: x, ?_, .inl (by simp [hnil])⟩
        simpa [List.isPrefixOf?, Ne.symm hc] using horphan
  · rintro ⟨x, hx, rfl | ⟨rfl, rfl⟩⟩
    · by_cases hnil : root = []
      · -- the name itself starts with a letter
        have hslash : ['/'].isPrefixOf? x = none := by
          rcases x with _ | ⟨c, x⟩
          · rfl
          · by_cases hc : c = '/'
            · obtain ⟨digits, seq, hsplit, -⟩ := isOrphanWalKey_iff.mp hx
              rw [hc, splitOn_slash] at hsplit
              cases hsplit
            · simp [List.isPrefixOf?, Ne.symm hc]
        simp [hnil, List.isPrefixOf?, hslash, hx]
      · have hrest : root.isPrefixOf? (root ++ '/' :: x) = some ('/' :: x) :=
          List.isPrefixOf?_eq_some_iff_append_eq.mpr rfl
        simp [hnil, hrest, List.isPrefixOf?, hx]
    · simp [List.isPrefixOf?, hx]

theorem isOrphanWalKey_segments {x : Name} {p : ObjectPath} (pre pre' : List Name)
    (hx : isOrphanWalKey x = true) (h : pre ++ x.splitOn '/' = pre' ++ segments p) :
    pre = pre' ∧ ∃ e s, p = .wal e s ∧ x = p.name.toList ∧ s < 10 ^ 8 := by
  obtain ⟨digits, seq, hsplit, -, hlen, -⟩ := isOrphanWalKey_iff.mp hx
  rw [hsplit] at h
  have hrev := congrArg List.reverse h
  cases p with
  | wal e s =>
    obtain ⟨hpre, hseg⟩ := List.append_inj' h (by simp [segments])
    refine ⟨hpre, e, s, rfl, splitOn_inj ?_, ?_⟩
    · rw [hsplit, hseg, splitOn_name (p := .wal e s) trivial]
    · rw [← length_padded_eq_iff (by decide)]
      simp only [segments, List.cons.injEq, List.append_cancel_right_eq] at hseg
      rw [← hseg.2.2.1, hlen]
  | blob e hash => simp [segments] at hrev
  | ownership | manifest | canary | sst =>
    have hlast := congrArg (fun l => l.head?.bind List.getLast?) hrev
    simp [segments] at hlast

theorem isOrphanWalKey_wal (e : Nat) {s : Nat} (h : s < 10 ^ 8) :
    isOrphanWalKey (ObjectPath.wal e s).name.toList = true := by
  refine isOrphanWalKey_iff.mpr ⟨(padded 6 e).toList, (padded 8 s).toList, ?_,
    ⟨?_, fun _ => isDigit_padded⟩, (length_padded_eq_iff (by decide)).mpr h,
    fun _ => isDigit_padded⟩
  · rw [splitOn_name (p := .wal e s) trivial]
    simp [segments, formatEpoch]
  · rw [length_padded]
    omega

/-- The engine's model of the check, on the paths below one prefix. -/
theorem isOrphanWalKey_name {p : ObjectPath} (h : Plain p) :
    isOrphanWalKey p.name.toList = OxKv.isOrphanWalKey p := by
  rw [Bool.eq_iff_iff]
  constructor
  · intro hx
    obtain ⟨-, e, s, rfl, -, hs⟩ := isOrphanWalKey_segments [] [] hx (by rw [splitOn_name h])
    exact decide_eq_true hs
  · intro hp
    cases p with
    | wal e s => exact isOrphanWalKey_wal e (of_decide_eq_true hp)
    | _ => cases hp

theorem splitOn_key (root : Name) {p : ObjectPath} (h : Plain p) :
    (key root p).splitOn '/' = above root ++ segments p := by
  rw [key, splitOn_child, splitOn_name h]

/-- Of the keys that stores write, the check lets through those of WAL objects of this store with
at most eight digits. -/
theorem orphan_key_iff {root root' : Name} {p : ObjectPath} (h : Plain p) :
    (underPrefix (key root' p) root = true ∧ orphan root (key root' p) = true) ↔
      key root' p = key root p ∧ ∃ e s, p = .wal e s ∧ s < 10 ^ 8 := by
  have hsplit := splitOn_key root' h
  rw [orphan_iff]
  constructor
  · rintro ⟨x, hx, hk | ⟨rfl, hk⟩⟩
    · rw [hk, splitOn_child] at hsplit
      obtain ⟨-, e, s, rfl, hname, hs⟩ := isOrphanWalKey_segments _ _ hx hsplit
      exact ⟨by rw [hk, hname]; rfl, e, s, rfl, hs⟩
    · -- no prefix leaves a leading slash
      rw [hk, splitOn_slash] at hsplit
      obtain ⟨habove, -⟩ := isOrphanWalKey_segments _ _ hx hsplit
      unfold above at habove
      split at habove
      · cases habove
      · rename_i hne
        exact absurd (splitOn_inj habove.symm) hne
  · rintro ⟨hk, e, s, rfl, hs⟩
    exact ⟨_, isOrphanWalKey_wal e hs, .inl hk⟩

theorem orphan_wal_iff {root : Name} {e s : Nat} :
    (underPrefix (key root (.wal e s)) root = true ∧ orphan root (key root (.wal e s)) = true) ↔
      s < 10 ^ 8 := by
  rw [orphan_key_iff (p := .wal e s) trivial]
  constructor
  · rintro ⟨-, _, _, heq, hs⟩
    cases heq
    exact hs
  · exact fun hs => ⟨rfl, e, s, rfl, hs⟩

/-! ## The sweep -/

theorem mem_list {b : Objects} {root k : Name} :
    k ∈ list b root ↔ k ∈ b ∧ underPrefix k root = true := by
  rw [list, List.mem_insertionSort, List.mem_filter, AList.mem_keys]

/-- The manifest of the store lists these WAL objects. -/
def Lists (root : Name) (b : Objects) (wal : List Name) : Prop :=
  b.lookup (key root .manifest) = some (.manifest wal) ∨
    b.lookup (key root .manifest) = none ∧ wal = []

/-- Some store wrote this key. -/
def Written (k : Name) : Prop := ∃ root p, Plain p ∧ k = key root p

/-- A WAL object of the store that its manifest does not list. -/
def Unlisted (root : Name) (wal : List Name) (k : Name) : Prop :=
  k ∉ wal ∧ ∃ e s, k = key root (.wal e s)

section Run

variable {root : Name} {r : OwnershipRecord} {b : Objects} {wal : List Name}

theorem gcOrphansInner_spec (hown : b.lookup (key root .ownership) = some (.ownership r))
    (hman : Lists root b wal) : ∃ n b', gcOrphansInner root r b = .ok (n, b') ∧ ∀ k, b'.lookup k =
      if k ∈ list b root ∧ orphan root k = true ∧ k ∉ wal then none else b.lookup k := by
  refine ⟨(sweep root wal (list b root) (0, b)).1, _, ?_, lookup_sweep root wal (list b root) 0 b⟩
  rw [gcOrphansInner, hown]
  rcases hman with hman | ⟨hman, rfl⟩ <;> simp [hman]

/-- In a bucket of stores, the owner's sweep deletes exactly the unlisted WAL objects of its store
if and only if none of them has a number of nine digits. -/
theorem sweep_exact_iff (root : Name) (r : OwnershipRecord) (b : Objects) (wal : List Name)
    (hown : b.lookup (key root .ownership) = some (.ownership r)) (hman : Lists root b wal)
    (hkeys : ∀ k ∈ b, Written k) :
    (∃ n b', gcOrphansInner root r b = .ok (n, b') ∧ ∀ k,
      (Unlisted root wal k → b'.lookup k = none) ∧
      (¬ Unlisted root wal k → b'.lookup k = b.lookup k)) ↔
    ∀ e s, key root (.wal e s) ∈ b → key root (.wal e s) ∉ wal → s < 10 ^ 8 := by
  obtain ⟨n, b', hrun, hleft⟩ := gcOrphansInner_spec hown hman
  constructor
  · rintro ⟨_, _, hrun', hall⟩ e s hin hnot
    cases hrun.symm.trans hrun'
    have hgone := (hall _).1 ⟨hnot, e, s, rfl⟩
    rw [hleft] at hgone
    split at hgone
    · rename_i hlist
      exact orphan_wal_iff.mp ⟨(mem_list.mp hlist.1).2, hlist.2.1⟩
    · rw [← AList.lookup_isSome, hgone] at hin
      cases hin
  · intro h
    refine ⟨_, _, hrun, fun k => ⟨?_, fun hno => ?_⟩⟩
    · rintro ⟨hnot, e, s, rfl⟩
      rw [hleft]
      by_cases hin : key root (.wal e s) ∈ b
      · obtain ⟨hunder, horphan⟩ := orphan_wal_iff.mpr (h e s hin hnot)
        exact if_pos ⟨mem_list.mpr ⟨hin, hunder⟩, horphan, hnot⟩
      · rw [AList.lookup_eq_none.mpr hin, ite_self]
    · rw [hleft, if_neg]
      rintro ⟨hlist, horphan, hnot⟩
      obtain ⟨hin, hunder⟩ := mem_list.mp hlist
      obtain ⟨root', p, hp, rfl⟩ := hkeys _ hin
      obtain ⟨heq, e, s, rfl, -⟩ := (orphan_key_iff hp).mp ⟨hunder, horphan⟩
      exact hno ⟨hnot, e, s, heq⟩

end Run

/-- The bucket of a store with one unlisted WAL object. -/
def oneOrphan (root : Name) (r : OwnershipRecord) (e s : Nat) : Objects :=
  ((AList.insert (key root (.wal e s)) .data ∅).insert (key root .manifest) (.manifest [])).insert
    (key root .ownership) (.ownership r)

theorem mem_oneOrphan {root : Name} {r : OwnershipRecord} {e s : Nat} {k : Name} :
    k ∈ oneOrphan root r e s ↔
      k = key root .ownership ∨ k = key root .manifest ∨ k = key root (.wal e s) := by
  simp only [oneOrphan, AList.mem_insert, AList.notMem_empty, or_false]

theorem key_ne {root : Name} {p q : ObjectPath} (hp : Plain p) (hq : Plain q)
    (h : segments p ≠ segments q) : key root p ≠ key root q := fun heq => by
  have hsplit := splitOn_key root hp
  rw [heq, splitOn_key root hq] at hsplit
  exact h (List.append_cancel_left hsplit).symm

theorem oneOrphan_spec (root : Name) (r : OwnershipRecord) (e s : Nat) :
    (oneOrphan root r e s).lookup (key root .ownership) = some (.ownership r) ∧
      Lists root (oneOrphan root r e s) [] ∧ ∀ k ∈ oneOrphan root r e s, Written k := by
  have hne : key root .manifest ≠ key root .ownership :=
    key_ne trivial trivial (by simp [segments])
  refine ⟨AList.lookup_insert _, .inl ?_, fun k hk => ?_⟩
  · rw [oneOrphan, AList.lookup_insert_ne hne, AList.lookup_insert]
  · rcases mem_oneOrphan.mp hk with rfl | rfl | rfl
    · exact ⟨root, .ownership, trivial, rfl⟩
    · exact ⟨root, .manifest, trivial, rfl⟩
    · exact ⟨root, .wal e s, trivial, rfl⟩

theorem short_of_key_eq {root root' : Name} {e s e' s' : Nat}
    (h : key root (.wal e s) = key root' (.wal e' s')) : s < 10 ^ 8 ↔ s' < 10 ^ 8 := by
  have hsplit := splitOn_key root (p := .wal e s) trivial
  rw [h, splitOn_key root' (p := .wal e' s') trivial] at hsplit
  have hlast := congrArg List.getLast? hsplit
  simp only [segments, List.getLast?_append, List.getLast?_cons_cons, List.getLast?_singleton,
    Option.some_or, Option.some.injEq, List.append_cancel_right_eq] at hlast
  rw [← length_padded_eq_iff (by decide), ← hlast, length_padded_eq_iff (by decide)]

/-- The store also has a listed WAL object, and the bucket holds one of another store. -/
def sharedBucket : Objects :=
  (((oneOrphan "db".toList ⟨1, "a"⟩ 1 2).insert (key "db".toList (.wal 1 1)) .data).insert
    (key "db".toList .manifest) (.manifest [key "db".toList (.wal 1 1)])).insert
    (key "db2".toList (.wal 1 2)) .data

theorem mem_sharedBucket {k : Name} (h : k ∈ sharedBucket) :
    k = key "db".toList .ownership ∨ k = key "db".toList .manifest ∨
      ∃ root s, k = key root (.wal 1 s) ∧ s < 10 ^ 8 := by
  simp only [sharedBucket, AList.mem_insert, mem_oneOrphan] at h
  rcases h with rfl | rfl | rfl | rfl | rfl | rfl
  · exact .inr (.inr ⟨_, 2, rfl, by decide⟩)
  · exact .inr (.inl rfl)
  · exact .inr (.inr ⟨_, 1, rfl, by decide⟩)
  · exact .inl rfl
  · exact .inr (.inl rfl)
  · exact .inr (.inr ⟨_, 2, rfl, by decide⟩)

theorem sweep_exact_iff_shared :
    ∃ n b', gcOrphansInner "db".toList ⟨1, "a"⟩ sharedBucket = .ok (n, b') ∧
      b'.lookup (key "db".toList (.wal 1 2)) = none ∧
      b'.lookup (key "db".toList (.wal 1 1)) = some .data ∧
      b'.lookup (key "db2".toList (.wal 1 2)) = some .data := by
  have hkeys : ∀ k ∈ sharedBucket, Written k := fun k hk => by
    rcases mem_sharedBucket hk with rfl | rfl | ⟨root, s, rfl, -⟩
    · exact ⟨_, .ownership, trivial, rfl⟩
    · exact ⟨_, .manifest, trivial, rfl⟩
    · exact ⟨root, .wal 1 s, trivial, rfl⟩
  obtain ⟨n, b', hrun, hall⟩ := (sweep_exact_iff "db".toList ⟨1, "a"⟩ sharedBucket
    [key "db".toList (.wal 1 1)] (by decide +kernel) (.inl (by decide +kernel)) hkeys).mpr
    fun e s hin _ => by
      rcases mem_sharedBucket hin with h | h | ⟨root, s', h, hs⟩
      · exact absurd h (key_ne (p := .wal e s) (q := .ownership) trivial trivial
          (by simp [segments]))
      · exact absurd h (key_ne (p := .wal e s) (q := .manifest) trivial trivial
          (by simp [segments]))
      · exact (short_of_key_eq h).mpr hs
  refine ⟨n, b', hrun, (hall _).1 ⟨by decide +kernel, 1, 2, rfl⟩,
    ((hall _).2 fun h => h.1 (List.mem_singleton_self _)).trans (by decide +kernel),
    ((hall _).2 ?_).trans (by decide +kernel)⟩
  rintro ⟨-, e, s, heq⟩
  have hsplit := splitOn_key "db2".toList (p := .wal 1 2) trivial
  rw [heq, splitOn_key "db".toList (p := .wal e s) trivial] at hsplit
  exact absurd (List.cons.inj hsplit).1 (by decide +kernel)

/-- The hundred millionth WAL object of an epoch stays. -/
theorem nine_digits_kept :
    ∃ n b', gcOrphansInner "db".toList ⟨1, "a"⟩ (oneOrphan "db".toList ⟨1, "a"⟩ 1 (10 ^ 8)) =
      .ok (n, b') ∧ b'.lookup (key "db".toList (.wal 1 (10 ^ 8))) = some .data := by
  obtain ⟨hown, hman, -⟩ := oneOrphan_spec "db".toList ⟨1, "a"⟩ 1 (10 ^ 8)
  obtain ⟨n, b', hrun, hleft⟩ := gcOrphansInner_spec hown hman
  refine ⟨n, b', hrun, ?_⟩
  rw [hleft, if_neg, oneOrphan, AList.lookup_insert_ne, AList.lookup_insert_ne, AList.lookup_insert]
  · exact key_ne (p := .wal 1 (10 ^ 8)) (q := .manifest) trivial trivial (by simp [segments])
  · exact key_ne (p := .wal 1 (10 ^ 8)) (q := .ownership) trivial trivial (by simp [segments])
  · rintro ⟨hlist, horphan, -⟩
    exact absurd (orphan_wal_iff.mp ⟨(mem_list.mp hlist).2, horphan⟩) (by decide)

end OxKv.Bucket
