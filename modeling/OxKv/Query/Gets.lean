import OxKv.Lib.Paging
import OxKv.BTree
import OxKv.Lucene.Eval
import OxKv.Lucene.Parse

/-!
The filtered scan `gets`: rows are read with `gets_bytes` in pages of 256, each page
from the last key of the page before, and matching rows are collected up to the limit.
`GetSetExt` and `StoreView` have the same loop.

* `gets_eq`: what the loop returns: the first rows that match and whose key is not the
  start cursor;
* `gets_pagination`: when that is what an unlimited scan and a filter would give.
-/

namespace OxKv

namespace Query

/-- The query engine: parser, JSON parser and evaluation. -/
structure Engine where
  Ast : Type
  Json : Type
  parse : String → Except String Ast
  fromSlice : Bytes → Option Json
  eval : Ast → Json → Bool

/-- Whether a row matches: its value is JSON that satisfies the query. -/
def Engine.matches (q : Engine) (ast : q.Ast) (kv : KeyValue) : Bool :=
  (q.fromSlice kv.2).any (q.eval ast)

/-- The `gets_bytes` of a store that does not change. -/
abbrev Scan := Option Nat → Direction → Cursor → Res (List KeyValue)

/-- `BATCH_SIZE` -/
def batchSize : Nat := 256

/-- `results.len() >= max_results`; without a limit that is `usize::MAX`, which no
vector reaches. -/
def full (limit : Option Nat) (results : List KeyValue) : Bool :=
  limit.any fun max => max ≤ results.length

/-- The loop over one page: leave out the row of the page cursor, collect matches. -/
def collectPage (hit : KeyValue → Bool) (limit : Option Nat) (pageCursor : Option Key) :
    List KeyValue → List KeyValue → List KeyValue
  | results, [] => results
  | results, kv :: batch =>
    if pageCursor = some kv.1 then collectPage hit limit pageCursor results batch
    else if hit kv then
      if full limit (results ++ [kv]) then results ++ [kv]
      else collectPage hit limit pageCursor (results ++ [kv]) batch
    else collectPage hit limit pageCursor results batch

/-- The loop over the pages. -/
def pages (scan : Scan) (hit : KeyValue → Bool) (limit : Option Nat) (d : Direction)
    (stop : Option Key) : Nat → Option Key → List KeyValue → Option (Res (List KeyValue))
  | 0, _, _ => none
  | fuel + 1, pageCursor, results =>
    match scan (some batchSize) d (pageCursor, stop) with
    | .error e => some (.error e)
    | .ok batch =>
      if batch.isEmpty then some (.ok results)
      else
        let results := collectPage hit limit pageCursor results batch
        if batch.length < batchSize ∨ full limit results then some (.ok results)
        else pages scan hit limit d stop fuel (batch.getLast?.map Prod.fst) results

/-- The body of both `gets`; `none` when the fuel is not enough. -/
def filtered (q : Engine) (scan : Scan) (fuel : Nat) (limit : Option Nat) (d : Direction)
    (cursor : Cursor) (query : Option String) : Option (Res (List KeyValue)) :=
  match query with
  | none => some (scan limit d cursor)
  | some text =>
    -- checked before the scan: the loop tests the limit after each row
    if limit = some 0 then some (.ok [])
    else
      match q.parse text with
      | .error msg => some (.error (.other msg))
      | .ok ast => pages scan (q.matches ast) limit d cursor.2 fuel cursor.1 []

/-- `GetSetExt::gets`. -/
def getSetExtGets (q : Engine) (scan : Scan) := filtered q scan

/-- `StoreView::gets`. -/
def storeViewGets (q : Engine) (scan : Scan) := filtered q scan

/-! ## Sorted rows -/

instance (d : Direction) : DecidableRel (Plain.precedes d) := fun a b =>
  match d with
  | .next => inferInstanceAs (Decidable (a < b))
  | .prev => inferInstanceAs (Decidable (b < a))

instance (d : Direction) : Std.Asymm (Plain.precedes d) :=
  ⟨fun a b h => by cases d <;> exact lt_asymm (show _ < _ from h)⟩

theorem not_before_next (a b : Key) : decide (¬ Plain.precedes .next a b) = decide (b ≤ a) :=
  decide_eq_decide.mpr not_lt

theorem not_before_prev (a b : Key) : decide (¬ Plain.precedes .prev a b) = decide (a ≤ b) :=
  decide_eq_decide.mpr not_lt

section Rows

variable (m : Plain) (d : Direction) (stop : Option Key)

theorem gets_limit (limit : Option Nat) (c : Cursor) :
    m.gets limit d c = cut limit (m.gets none d c) := by
  obtain ⟨start, stop⟩ := c
  cases d with
  | next => rfl
  | prev =>
    cases start with
    | none => cases limit <;> simp [Plain.gets, cut]
    | some s => rfl

variable {m d stop}

/-- A scan does not go behind its start. -/
theorem gets_not_before {k : Key} {x : KeyValue} (h : x ∈ m.gets none d (some k, stop)) :
    ¬ Plain.precedes d x.1 k := by
  cases d with
  | next =>
    have hx := (List.mem_filter.mp h).2
    simp only [inRange, Bool.and_eq_true, decide_eq_true_eq] at hx
    exact not_lt.mpr hx.1
  | prev =>
    have hx := (List.mem_filter.mp (List.mem_reverse.mp h)).2
    simp only [inRange, Bool.and_eq_true, decide_eq_true_eq] at hx
    exact not_lt.mpr hx.2

/-- A scan from one of its rows goes on from there. -/
theorem gets_from {start : Option Key} {a b : List KeyValue} {x : KeyValue}
    (h : m.gets none d (start, stop) = a ++ x :: b) : m.gets none d (some x.1, stop) = x :: b := by
  have hsorted := m.gets_ordered d (start, stop)
  have hx : x ∈ m.gets none d (start, stop) := by simp [h]
  rw [h] at hsorted
  rw [← Paging.filter_from hsorted, ← h]
  cases d with
  | next =>
    simp only [Plain.gets, cut, List.mem_filter] at hx ⊢
    rw [List.filter_filter]
    refine List.filter_congr fun y _ => ?_
    rw [not_before_next]
    cases start with
    | none => simp [inRange]
    | some s =>
      simp only [inRange, Bool.and_eq_true, decide_eq_true_eq] at hx
      by_cases hxy : x.1 ≤ y.1
      · simp [inRange, hxy, hx.2.1.trans hxy]
      · simp [inRange, hxy]
  | prev =>
    cases start with
    | none => cases hx
    | some s =>
      simp only [Plain.gets, cut, List.mem_reverse, List.mem_filter] at hx ⊢
      rw [← List.filter_reverse, ← List.filter_reverse, List.filter_filter]
      refine List.filter_congr fun y _ => ?_
      rw [not_before_prev]
      simp only [inRange, Bool.and_eq_true, decide_eq_true_eq] at hx
      by_cases hxy : y.1 ≤ x.1
      · simp [inRange, hxy, hxy.trans hx.2.2]
      · simp [inRange, hxy]

end Rows

/-! ## The loops -/

section Loops

variable {hit : KeyValue → Bool} {limit : Option Nat}

/-- The rows a page adds. -/
def fresh (hit : KeyValue → Bool) (pageCursor : Option Key) (batch : List KeyValue) :
    List KeyValue :=
  batch.filter fun kv => pageCursor ≠ some kv.1 && hit kv

theorem cut_of_full {results rows : List KeyValue} (h : full limit results = true)
    (hle : ∀ max, limit = some max → results.length ≤ max) :
    cut limit (results ++ rows) = results := by
  cases limit with
  | none => cases h
  | some max =>
    have hlen : max = results.length :=
      le_antisymm (by simpa [full] using h) (hle max rfl)
    simp [cut, hlen]

theorem collectPage_eq (pageCursor : Option Key) (results batch : List KeyValue)
    (hroom : full limit results = false) :
    collectPage hit limit pageCursor results batch =
      cut limit (results ++ fresh hit pageCursor batch) := by
  have hroom' : ∀ max, limit = some max → results.length < max := fun max hmax => by
    simpa [full, hmax] using hroom
  induction batch generalizing results with
  | nil =>
    cases limit with
    | none => simp [collectPage, fresh, cut]
    | some max => simp [collectPage, fresh, cut, List.take_of_length_le (hroom' max rfl).le]
  | cons kv batch ih =>
    rw [collectPage]
    by_cases hcur : pageCursor = some kv.1
    · simpa [hcur, fresh] using ih results hroom hroom'
    · by_cases hhit : hit kv = true
      · rw [if_neg hcur, if_pos hhit]
        have hfresh : results ++ fresh hit pageCursor (kv :: batch) =
            (results ++ [kv]) ++ fresh hit pageCursor batch := by
          simp [fresh, hcur, hhit]
        rw [hfresh]
        by_cases hfull : full limit (results ++ [kv]) = true
        · rw [if_pos hfull, cut_of_full hfull fun max hmax => by
            rw [List.length_append]
            exact hroom' max hmax]
        · rw [if_neg hfull]
          have hroom1 : full limit (results ++ [kv]) = false := by simpa using hfull
          exact ih _ hroom1 fun max hmax => by simpa [full, hmax] using hroom1
      · simpa [hcur, hhit, fresh] using ih results hroom hroom'

/-- A store whose scans are those of a plain map. -/
def Lists (scan : Scan) (m : Plain) : Prop :=
  ∀ limit d c, scan limit d c = .ok (m.gets limit d c)

theorem cut_of_room {results : List KeyValue} (h : full limit results = false) :
    cut limit results = results := by
  cases limit with
  | none => rfl
  | some max =>
    have hlt : results.length < max := by simpa [full] using h
    exact List.take_of_length_le hlt.le

/-- Once the limit is reached, more rows change nothing. -/
theorem cut_append_of_full {rows more : List KeyValue} (h : full limit (cut limit rows) = true) :
    cut limit (rows ++ more) = cut limit rows := by
  cases limit with
  | none => cases h
  | some max =>
    have hle : max ≤ rows.length := by
      have : max ≤ (rows.take max).length := by simpa [full, cut] using h
      rw [List.length_take] at this
      omega
    exact List.take_append_of_le_length hle

/-- The rows of the next page are new, except for the one it starts with. -/
theorem fresh_next {m : Plain} {d : Direction} {stop pageCursor : Option Key}
    {a b : List KeyValue} {x : KeyValue}
    (h : m.gets none d (pageCursor, stop) = a ++ x :: b) :
    fresh hit (some x.1) (x :: b) = fresh hit pageCursor b := by
  have hsorted := m.gets_ordered d (pageCursor, stop)
  rw [h] at hsorted
  have hx : fresh hit (some x.1) (x :: b) = fresh hit (some x.1) b := by simp [fresh]
  rw [hx]
  refine List.filter_congr fun y hy => ?_
  have hne : y.1 ≠ x.1 := Paging.key_ne hsorted (.inr hy)
  have hcur : pageCursor ≠ some y.1 := by
    rintro rfl
    -- `x` would lie behind the start of the scan
    have hxy : Plain.precedes d x.1 y.1 :=
      (List.pairwise_cons.mp (List.pairwise_append.mp hsorted).2.1).1 y hy
    exact gets_not_before (by rw [h]; simp) hxy
  simp [hne.symm, hcur]

theorem pages_succ {scan : Scan} {m : Plain} (hscan : Lists scan m) (d : Direction)
    (stop : Option Key) (fuel : Nat) (pageCursor : Option Key) (results page : List KeyValue)
    (hpage : (m.gets none d (pageCursor, stop)).take batchSize = page) :
    pages scan hit limit d stop (fuel + 1) pageCursor results =
      if page = [] then some (.ok results)
      else if page.length < batchSize ∨ full limit (collectPage hit limit pageCursor results page) then
        some (.ok (collectPage hit limit pageCursor results page))
      else pages scan hit limit d stop fuel (page.getLast?.map Prod.fst)
        (collectPage hit limit pageCursor results page) := by
  rw [pages, hscan, gets_limit]
  simp only [cut, hpage, List.isEmpty_iff]

/-- The loop over the pages collects the rest of the matching rows. -/
theorem pages_eq {scan : Scan} {m : Plain} (hscan : Lists scan m) {d : Direction}
    {stop : Option Key} {fuel : Nat} {pageCursor : Option Key} {results : List KeyValue}
    (hfuel : (m.gets none d (pageCursor, stop)).length < fuel) (hroom : full limit results = false) :
    pages scan hit limit d stop fuel pageCursor results =
      some (.ok (cut limit (results ++ fresh hit pageCursor (m.gets none d (pageCursor, stop))))) := by
  induction fuel generalizing pageCursor results with
  | zero => omega
  | succ fuel ih =>
    rw [pages_succ hscan _ _ _ _ _ _ rfl]
    generalize hrows : m.gets none d (pageCursor, stop) = rows at hfuel ⊢
    by_cases hnil : rows = []
    · subst hnil
      rw [if_pos List.take_nil, show fresh hit pageCursor [] = [] from rfl, List.append_nil,
        cut_of_room hroom]
    · rw [if_neg (by simpa [batchSize] using hnil), collectPage_eq _ _ _ hroom]
      by_cases hshort : rows.length < batchSize
      · -- the last page
        rw [List.take_of_length_le hshort.le, if_pos (.inl hshort)]
      · obtain ⟨a, x, b, rfl, hpage, hlen⟩ :=
          Paging.take_succ_append (n := batchSize - 1)
            (Nat.lt_of_lt_of_le (by decide) (not_lt.mp hshort))
        have hpage : (a ++ x :: b).take batchSize = a ++ [x] := hpage
        have hsplit : fresh hit pageCursor (a ++ x :: b) =
            fresh hit pageCursor (a ++ [x]) ++ fresh hit pageCursor b := by
          simp only [fresh, ← List.filter_append, List.append_assoc, List.singleton_append]
        have hfullpage : ¬ (a ++ [x]).length < batchSize := by
          simp [hlen, batchSize]
        rw [hpage, hsplit, ← List.append_assoc]
        by_cases hfull : full limit (cut limit (results ++ fresh hit pageCursor (a ++ [x]))) = true
        · rw [if_pos (.inr hfull), cut_append_of_full hfull]
        · have hroom1 : full limit (results ++ fresh hit pageCursor (a ++ [x])) = false := by
            cases limit with
            | none => rfl
            | some max => simpa [full, cut] using hfull
          have hnext := gets_from hrows
          rw [if_neg (by simp only [not_or]; exact ⟨hfullpage, hfull⟩), cut_of_room hroom1,
            List.getLast?_append, List.getLast?_singleton]
          have hfuel' : (m.gets none d (some x.1, stop)).length < fuel := by
            rw [hnext]
            simp only [List.length_append, List.length_cons, hlen, batchSize] at hfuel ⊢
            omega
          refine (ih hfuel' hroom1).trans ?_
          rw [hnext, fresh_next hrows]

end Loops

/-! ## The filtered scan -/

/-- What both implementations return: the first matching rows, without the row of the
start cursor. -/
theorem filtered_eq {q : Engine} {scan : Scan} {m : Plain} (hscan : Lists scan m)
    {fuel : Nat} {limit : Option Nat} {d : Direction} {c : Cursor} {text : String} {ast : q.Ast}
    (hparse : q.parse text = .ok ast) (hfuel : (m.gets none d c).length < fuel) :
    filtered q scan fuel limit d c (some text) =
      some (.ok (cut limit (fresh (q.matches ast) c.1 (m.gets none d c)))) := by
  simp only [filtered, hparse]
  by_cases hzero : limit = some 0
  · simp [hzero, cut]
  · have hroom : full limit [] = false := by
      cases limit with
      | none => rfl
      | some max => simpa [full, Nat.pos_iff_ne_zero] using hzero
    rw [if_neg hzero]
    exact pages_eq hscan hfuel hroom

/-- Leaving out the row of the start cursor shows in the result exactly if it matches. -/
theorem cut_fresh_iff {hit : KeyValue → Bool} {m : Plain} {limit : Option Nat} {d : Direction}
    {c : Cursor} :
    cut limit (fresh hit c.1 (m.gets none d c)) = cut limit ((m.gets none d c).filter hit) ↔
      limit = some 0 ∨ ∀ kv ∈ m.gets none d c, hit kv → c.1 ≠ some kv.1 := by
  obtain ⟨start, stop⟩ := c
  constructor
  · intro heq
    by_cases hzero : limit = some 0
    · exact .inl hzero
    · refine .inr fun kv hkv hhit hstart => ?_
      simp only at hstart
      subst hstart
      obtain ⟨a, b, hab⟩ := List.append_of_mem hkv
      -- the row of the start cursor comes first
      have hfrom := gets_from hab
      rw [hfrom] at heq
      have hmem : kv ∈ cut limit ((kv :: b).filter hit) := by
        rw [List.filter_cons_of_pos hhit]
        cases limit with
        | none => exact List.mem_cons_self
        | some max =>
          cases max with
          | zero => exact absurd rfl hzero
          | succ n => simp [cut]
      rw [← heq] at hmem
      have hsub : ∀ x ∈ cut limit (fresh hit (some kv.1) (kv :: b)),
          x ∈ fresh hit (some kv.1) (kv :: b) := by
        cases limit with
        | none => exact fun x hx => hx
        | some max => exact fun x hx => List.mem_of_mem_take hx
      have := (List.mem_filter.mp (hsub kv hmem)).2
      simp at this
  · rintro (rfl | hno)
    · simp [cut]
    · have hrows : fresh hit start (m.gets none d (start, stop)) =
          (m.gets none d (start, stop)).filter hit := by
        refine List.filter_congr fun kv hkv => ?_
        by_cases hhit : hit kv = true
        · simp [hhit, hno kv hkv hhit]
        · simp [hhit]
      rw [hrows]

/-- Both filtered scans return the first matching rows of an unlimited scan, unless the
row of the inclusive start cursor itself exists and matches. -/
theorem gets_pagination {q : Engine} {scan : Scan} {m : Plain} (hscan : Lists scan m)
    {fuel : Nat} {limit : Option Nat} {d : Direction} {c : Cursor} {text : String} {ast : q.Ast}
    (hparse : q.parse text = .ok ast) (hfuel : (m.gets none d c).length < fuel) :
    ∃ rows, getSetExtGets q scan fuel limit d c (some text) = some (.ok rows) ∧
      storeViewGets q scan fuel limit d c (some text) = some (.ok rows) ∧
      (rows = cut limit ((m.gets none d c).filter (q.matches ast)) ↔
        limit = some 0 ∨ ∀ kv ∈ m.gets none d c, q.matches ast kv → c.1 ≠ some kv.1) :=
  ⟨_, filtered_eq hscan hparse hfuel, filtered_eq hscan hparse hfuel, cut_fresh_iff⟩

/-! ## With the parser and the matcher -/

/-- The crate's own engine. `fromSlice` is `serde_json::from_slice`, `report` the text of a syntax
error; the fuel is for the grammar. -/
def luceneEngine (X : Lucene.Externs) (fromSlice : Bytes → Option (Lucene.Value X.Number))
    (report : String → String) (fuel : Nat) : Engine where
  Ast := Lucene.Query
  Json := Lucene.Value X.Number
  parse text :=
    match Lucene.parseWith fuel text.toList with
    | some (.ok query) => .ok query
    | some (.error (.message msg)) => .error msg
    | _ => .error (report text)
  fromSlice := fromSlice
  eval query doc := Lucene.eval X doc query

/-- A filtered scan collects the documents that the parsed query matches. -/
theorem lucene_gets {X : Lucene.Externs} {fromSlice : Bytes → Option (Lucene.Value X.Number)}
    {report : String → String} {text : String} {query : Lucene.Query}
    (hparse : Lucene.Parses text.toList (.ok query)) :
    ∃ n, ∀ {scan : Scan} {m : Plain}, Lists scan m → ∀ {fuel limit d c},
      (m.gets none d c).length < fuel →
      filtered (luceneEngine X fromSlice report n) scan fuel limit d c (some text) =
        some (.ok (cut limit (fresh (fun kv => (fromSlice kv.2).any (Lucene.eval X · query)) c.1
          (m.gets none d c)))) := by
  obtain ⟨n, hn⟩ := hparse
  refine ⟨n, fun hscan fuel limit d c hfuel => ?_⟩
  have hparses : (luceneEngine X fromSlice report n).parse text = .ok query := by
    simp only [luceneEngine, hn]
  exact filtered_eq hscan hparses hfuel

/-- A JSON object with `n` equal to 1. -/
def sampleDoc : Bytes := [123, 34, 110, 34, 58, 49, 125]

/-- The sample document and values that are not JSON. -/
def sampleFromSlice (b : Bytes) : Option (Lucene.Value Nat) :=
  if b = sampleDoc then some (.object [(['n'], .number (1 : Nat))]) else none

def sampleEngine : Engine :=
  luceneEngine Lucene.asciiExterns sampleFromSlice (fun _ => "syntax error") 80

/-- The query `n:1`. -/
def sampleQuery : Lucene.Query := .single (.field ['n'] (.term (.plain ['1'])))

def sampleRows : BTreeStore :=
  ((SortedMap.empty.insert "a" sampleDoc).insert "b" sampleDoc).insert "c" [0]

def sampleScan : Scan := fun limit d c => .ok (sampleRows.getsBytes limit d c)

theorem sampleScan_lists : Lists sampleScan sampleRows := fun limit d c =>
  congrArg Except.ok (sampleRows.getsBytes_eq limit d c)

theorem gets_pagination_inside :
    ∃ rows, getSetExtGets sampleEngine sampleScan 4 (some 1) .prev (some "c", none) (some "n:1") =
        some (.ok rows) ∧
      storeViewGets sampleEngine sampleScan 4 (some 1) .prev (some "c", none) (some "n:1") =
        some (.ok rows) ∧
      rows = [("b", sampleDoc)] := by
  obtain ⟨rows, hext, hview, hiff⟩ := @gets_pagination sampleEngine sampleScan sampleRows
    sampleScan_lists 4 (some 1) .prev (some "c", none) "n:1" sampleQuery rfl (by decide)
  have hrows : cut (some 1) ((Plain.gets sampleRows none .prev (some "c", none)).filter
      (sampleEngine.matches sampleQuery)) = [("b", sampleDoc)] := by decide +kernel
  exact ⟨rows, hext, hview, (hiff.mpr (.inr (by decide +kernel))).trans hrows⟩

theorem start_row_left_out :
    getSetExtGets sampleEngine sampleScan 4 none .next (some "a", none) (some "n:1") =
      some (.ok [("b", sampleDoc)]) ∧
    storeViewGets sampleEngine sampleScan 4 none .next (some "a", none) (some "n:1") =
      some (.ok [("b", sampleDoc)]) ∧
    (sampleRows.getsBytes none .next (some "a", none)).filter (sampleEngine.matches sampleQuery) =
      [("a", sampleDoc), ("b", sampleDoc)] := by
  decide

end Query

end OxKv
