import OxKv.Lucene.Eval
import OxKv.Lucene.Parse

/-!
Groups with explicit operators. The matcher promises that a missing operator means `OR`. It starts
a new clause only behind an explicit `OR`, so a missing operator joins its neighbours as `AND` does,
and an `OR` on the last item opens a clause without items, which always holds.
-/

namespace OxKv.Lucene

/-! ## The documented reading -/

/-- The items in runs that are joined by explicit `AND`s. -/
def runs {ε : Type} : List (Item ε) → List (List (Item ε))
  | [] => []
  | item :: rest =>
    match runs rest with
    | [] => [[item]]
    | run :: more => if item.op = some .and then (item :: run) :: more else [item] :: run :: more

section Documented

variable (X : Externs) (doc : Value X.Number) (path : List Text)

/-- An item holds at a path of a document. -/
def Satisfied (item : QueryItem) : Prop :=
  evalItem ⟨item.pfx, evalExpr X doc path (compileExpr X item.expr), item.op⟩ = true

/-- Some run of a group has all its items satisfied. -/
def Documented (items : List QueryItem) : Prop :=
  ∃ run ∈ runs items, ∀ item ∈ run, Satisfied X doc path item

end Documented

/-! ## Both readings on the values of the items -/

/-- The matcher, with the value of the clause that is built. -/
def clausesHold (acc : Bool) : List (Item Bool) → Bool
  | [] => acc
  | item :: rest =>
    if item.op = some .or then (acc && evalItem item) || clausesHold true rest
    else clausesHold (acc && evalItem item) rest

/-- The documented reading, with the value of the run that is built. -/
def runsHold (acc : Bool) : List (Item Bool) → Bool
  | [] => false
  | [item] => acc && evalItem item
  | item :: rest =>
    if item.op = some .and then runsHold (acc && evalItem item) rest
    else (acc && evalItem item) || runsHold true rest

theorem clausesFrom_any (clause items : List (Item Bool)) :
    ((clausesFrom clause items).any fun c => c.all evalItem) =
      clausesHold (clause.all evalItem) items := by
  induction items generalizing clause with
  | nil => rw [clausesFrom, clausesHold, List.any_cons, List.any_nil, Bool.or_false]
  | cons item rest ih =>
    have hall : (clause ++ [item]).all evalItem = (clause.all evalItem && evalItem item) := by
      rw [List.all_append, List.all_cons, List.all_nil, Bool.and_true]
    rw [clausesFrom, clausesHold]
    split
    · rw [List.any_cons, ih, hall, List.all_nil]
    · rw [ih, hall]

theorem evalBoolean_eq (items : List (Item Bool)) :
    evalBoolean items = clausesHold true items := clausesFrom_any [] items

/-- The value of the runs, when the first of them continues one that is built. -/
def anyRun (acc : Bool) : List (List (Item Bool)) → Bool
  | [] => false
  | run :: more => (acc && run.all evalItem) || more.any fun r => r.all evalItem

theorem runs_ne_nil {ε : Type} (item : Item ε) (rest : List (Item ε)) :
    ∃ run more, runs (item :: rest) = run :: more := by
  rw [runs]
  split
  · exact ⟨_, _, rfl⟩
  · split <;> exact ⟨_, _, rfl⟩

theorem runs_anyRun (acc : Bool) (items : List (Item Bool)) :
    anyRun acc (runs items) = runsHold acc items := by
  induction items generalizing acc with
  | nil => rfl
  | cons item rest ih =>
    cases rest with
    | nil => simp [runs, anyRun, runsHold]
    | cons next rest =>
      obtain ⟨run, more, hruns⟩ := runs_ne_nil next rest
      rw [runs, hruns, runsHold, ← ih, ← ih, hruns]
      · dsimp only
        split
        · simp [anyRun, Bool.and_assoc]
        · simp [anyRun]
      · exact List.cons_ne_nil next rest

theorem runs_any (items : List (Item Bool)) :
    ((runs items).any fun r => r.all evalItem) = runsHold true items := by
  rw [← runs_anyRun]
  cases runs items with
  | nil => rfl
  | cons run more => rw [anyRun, Bool.true_and, List.any_cons]

/-! ## From queries to values -/

def Item.map {ε δ : Type} (f : ε → δ) (item : Item ε) : Item δ := ⟨item.pfx, f item.expr, item.op⟩

theorem runs_map {ε δ : Type} (f : ε → δ) (items : List (Item ε)) :
    runs (items.map (Item.map f)) = (runs items).map (List.map (Item.map f)) := by
  induction items with
  | nil => rfl
  | cons item rest ih =>
    rw [List.map_cons, runs, runs, ih]
    cases runs rest with
    | nil => rfl
    | cons run more =>
      by_cases h : item.op = some .and
      · simp [Item.map, h]
      · simp [Item.map, h]

section Values

variable (X : Externs) (doc : Value X.Number) (path : List Text)

def values (items : List QueryItem) : List (Item Bool) :=
  items.map (Item.map fun e => evalExpr X doc path (compileExpr X e))

theorem evalItems_compile (items : List QueryItem) :
    evalItems X doc path (compileItems X items) = values X doc path items := by
  induction items with
  | nil => rfl
  | cons item rest ih =>
    rw [compileItems, evalItems, ih]
    rfl

theorem matchesIn_compile (items : List QueryItem) :
    matchesIn X doc path (compileQuery X (.group items)) = combine (values X doc path items) := by
  rw [compileQuery, matchesIn, evalItems_compile]

theorem documented_iff (items : List QueryItem) :
    Documented X doc path items ↔ runsHold true (values X doc path items) = true := by
  rw [← runs_any, values, runs_map, List.any_map, List.any_eq_true]
  refine exists_congr fun run => and_congr_right fun _ => ?_
  rw [Function.comp_apply, List.all_map, List.all_eq_true]
  rfl

end Values

/-! ## Where both readings agree -/

/-- Every operator but the last is written, and the last one is not `OR`. -/
def wellJoined : List (Option BinaryOp) → Bool
  | [] => true
  | [op] => op != some .or
  | op :: rest => op.isSome && wellJoined rest

theorem clausesHold_eq_runsHold (acc : Bool) (items : List (Item Bool)) (hne : items ≠ [])
    (h : wellJoined (items.map Item.op) = true) : clausesHold acc items = runsHold acc items := by
  induction items generalizing acc with
  | nil => exact absurd rfl hne
  | cons item rest ih =>
    cases rest with
    | nil =>
      rw [List.map_cons, List.map_nil, wellJoined, bne_iff_ne] at h
      rw [clausesHold, if_neg h, clausesHold, runsHold]
    | cons next rest =>
      rw [List.map_cons, List.map_cons, wellJoined, Bool.and_eq_true, ← List.map_cons] at h
      · have ih := fun acc => ih acc (List.cons_ne_nil next rest) h.2
        obtain ⟨op, hop⟩ := Option.isSome_iff_exists.mp h.1
        rw [clausesHold, runsHold, hop, ih, ih]
        · cases op <;> rfl
        · exact List.cons_ne_nil next rest
      · exact List.cons_ne_nil next.op _

/-- An item without a leaf to match: it fails as it is and holds under a negation. -/
def leafless (pfx : Option Prefix) (op : Option BinaryOp) : QueryItem :=
  ⟨pfx, .term (.plain []), op⟩

/-- Items that fail, with these operators. -/
def failing (ops : List (Option BinaryOp)) : List QueryItem := ops.map (leafless none)

/-- Items of which those up to the first missing operator hold as far as `AND` joins them. -/
def splitting : List (Option BinaryOp) → List QueryItem
  | [] => []
  | none :: rest => leafless (some .not) none :: failing rest
  | some .or :: rest => leafless none (some .or) :: splitting rest
  | some .and :: rest => leafless (some .not) (some .and) :: splitting rest

theorem failing_op (ops : List (Option BinaryOp)) : (failing ops).map Item.op = ops := by
  rw [failing, List.map_map]
  exact List.map_id ops

theorem splitting_op (ops : List (Option BinaryOp)) : (splitting ops).map Item.op = ops := by
  induction ops with
  | nil => rfl
  | cons op rest ih =>
    obtain _ | _ | _ := op
    · rw [splitting, List.map_cons, failing_op]
      rfl
    · rw [splitting, List.map_cons, ih]
      rfl
    · rw [splitting, List.map_cons, ih]
      rfl

section Spoil

variable (X : Externs)

def bare (items : List QueryItem) : List (Item Bool) := values X (.object []) [] items

theorem bare_cons (pfx : Option Prefix) (op : Option BinaryOp) (rest : List QueryItem) :
    bare X (leafless pfx op :: rest) = ⟨pfx, false, op⟩ :: bare X rest := rfl

theorem runsHold_failing (acc : Bool) (ops : List (Option BinaryOp)) :
    runsHold acc (bare X (failing ops)) = false := by
  induction ops generalizing acc with
  | nil => rfl
  | cons op rest ih =>
    rw [failing, List.map_cons, bare_cons, ← failing]
    cases rest with
    | nil => simp [failing, bare, values, runsHold, evalItem]
    | cons next rest =>
      rw [runsHold, ih, ih]
      · simp [evalItem]
      · exact nofun

theorem clausesHold_failing (acc : Bool) (ops : List (Option BinaryOp)) (hne : ops ≠ []) :
    clausesHold acc (bare X (failing ops)) = decide (ops.getLast? = some (some .or)) := by
  induction ops generalizing acc with
  | nil => exact absurd rfl hne
  | cons op rest ih =>
    rw [failing, List.map_cons, bare_cons, ← failing, clausesHold]
    cases rest with
    | nil => simp [failing, bare, values, clausesHold, evalItem]
    | cons next rest =>
      rw [ih _ (List.cons_ne_nil next rest), ih _ (List.cons_ne_nil next rest),
        List.getLast?_cons_cons]
      simp [evalItem]

/-- A missing operator in front of the last item makes the matcher fail where the runs hold. -/
theorem splitting_differs (ops : List (Option BinaryOp)) (hlast : ops.getLast? ≠ some (some .or))
    (h : wellJoined ops = false) :
    clausesHold true (bare X (splitting ops)) = false ∧
      runsHold true (bare X (splitting ops)) = true := by
  induction ops with
  | nil => cases h
  | cons op rest ih =>
    cases rest with
    | nil =>
      refine absurd ?_ hlast
      rw [wellJoined, bne_eq_false_iff_eq] at h
      rw [h]
      rfl
    | cons next rest =>
      rw [wellJoined] at h
      · obtain _ | _ | _ := op
        -- the missing operator: the run ends here and holds, the clause goes on and fails
        · rw [splitting, bare_cons, clausesHold, runsHold, runsHold_failing]
          · rw [if_neg nofun, clausesHold_failing X _ _ (List.cons_ne_nil next rest)]
            exact ⟨decide_eq_false hlast, rfl⟩
          · exact nofun
        · obtain ⟨hclauses, hruns⟩ := ih hlast h
          rw [splitting, bare_cons, clausesHold, runsHold]
          · exact ⟨hclauses, hruns⟩
          · intro hnil
            rw [hnil] at hruns
            cases hruns
        · obtain ⟨hclauses, hruns⟩ := ih hlast h
          rw [splitting, bare_cons, clausesHold, runsHold]
          · exact ⟨hclauses, hruns⟩
          · intro hnil
            rw [hnil] at hruns
            cases hruns
      · exact List.cons_ne_nil next rest

end Spoil

/-! ## Groups with an explicit operator -/

section Groups

variable (X : Externs)

theorem combine_values (doc : Value X.Number) (path : List Text) (items : List QueryItem)
    (h : ∃ op ∈ items.map Item.op, op.isSome = true) :
    combine (values X doc path items) = clausesHold true (values X doc path items) := by
  obtain ⟨op, hop, hsome⟩ := h
  obtain ⟨item, hitem, rfl⟩ := List.mem_map.mp hop
  have hmem : Item.map (fun e => evalExpr X doc path (compileExpr X e)) item ∈
      values X doc path items := List.mem_map_of_mem hitem
  have hany : (values X doc path items).any (fun item => item.op.isSome) = true :=
    List.any_eq_true.mpr ⟨_, hmem, hsome⟩
  rw [combine, if_neg (List.ne_nil_of_mem hmem), if_pos hany, evalBoolean_eq]

/-- The patterns of operators for which every group, on every document and under every field
scope, is read as documented. -/
theorem boolean_groups_iff (ops : List (Option BinaryOp)) (hops : ∃ op ∈ ops, op.isSome = true) :
    (∀ (items : List QueryItem) (doc : Value X.Number) (path : List Text),
      items.map Item.op = ops →
        (matchesIn X doc path (compileQuery X (.group items)) = true ↔
          Documented X doc path items)) ↔
      wellJoined ops = true := by
  constructor
  · intro hall
    by_contra hbad
    rw [Bool.not_eq_true] at hbad
    have hread (items : List QueryItem) (hitems : items.map Item.op = ops) :
        clausesHold true (bare X items) = true ↔ runsHold true (bare X items) = true := by
      have h := hall items (.object []) [] hitems
      rwa [matchesIn_compile, combine_values X _ _ _ (by rwa [hitems]), documented_iff] at h
    by_cases hlast : ops.getLast? = some (some .or)
    · have h := hread (failing ops) (failing_op ops)
      have hne : ops ≠ [] := by
        rintro rfl
        cases hlast
      rw [runsHold_failing, clausesHold_failing X true ops hne, decide_eq_true hlast] at h
      exact Bool.false_ne_true (h.mp rfl)
    · have h := hread (splitting ops) (splitting_op ops)
      obtain ⟨hclauses, hruns⟩ := splitting_differs X ops hlast hbad
      rw [hclauses, hruns] at h
      exact Bool.false_ne_true (h.mpr rfl)
  · rintro hjoined items doc path rfl
    have hne : values X doc path items ≠ [] := by
      obtain ⟨op, hop, -⟩ := hops
      obtain ⟨item, hitem, -⟩ := List.mem_map.mp hop
      exact List.ne_nil_of_mem (List.mem_map_of_mem hitem)
    have hvalues : (values X doc path items).map Item.op = items.map Item.op := by
      rw [values, List.map_map]
      rfl
    rw [matchesIn_compile, combine_values X doc path items hops, documented_iff,
      clausesHold_eq_runsHold true _ hne (by rwa [hvalues])]

end Groups

/-- The group of `b AND c OR rust`. -/
def andThenOr : List QueryItem :=
  [⟨none, .term (.plain ['b']), some .and⟩, ⟨none, .term (.plain ['c']), some .or⟩,
    ⟨none, .term (.plain ['r', 'u', 's', 't']), none⟩]

theorem boolean_groups_iff_andThenOr :
    matchesIn asciiExterns (.object [(['t'], .string ['r', 'u', 's', 't'])]) []
        (compileQuery asciiExterns (.group andThenOr)) = true ∧
    Documented asciiExterns (.object [(['t'], .string ['r', 'u', 's', 't'])]) [] andThenOr := by
  have hmatch : matchesIn asciiExterns (.object [(['t'], .string ['r', 'u', 's', 't'])]) []
      (compileQuery asciiExterns (.group andThenOr)) = true := by decide +kernel
  have hiff := (boolean_groups_iff asciiExterns [some .and, some .or, none] (by decide)).mpr rfl
  exact ⟨hmatch, (hiff andThenOr _ [] rfl).mp hmatch⟩

/-- `b AND c NOT d` on a document without these words: the run of `NOT d` holds, the matcher joins
it to the others. -/
theorem missing_operator_joins :
    Parses ['b', ' ', 'A', 'N', 'D', ' ', 'c', ' ', 'N', 'O', 'T', ' ', 'd']
      (.ok (.group [⟨none, .term (.plain ['b']), some .and⟩, ⟨none, .term (.plain ['c']), none⟩,
        ⟨some .not, .term (.plain ['d']), none⟩])) ∧
    eval asciiExterns (.object [(['t'], .string ['r', 'u', 's', 't'])])
      (.group [⟨none, .term (.plain ['b']), some .and⟩, ⟨none, .term (.plain ['c']), none⟩,
        ⟨some .not, .term (.plain ['d']), none⟩]) = false ∧
    Documented asciiExterns (.object [(['t'], .string ['r', 'u', 's', 't'])]) []
      [⟨none, .term (.plain ['b']), some .and⟩, ⟨none, .term (.plain ['c']), none⟩,
        ⟨some .not, .term (.plain ['d']), none⟩] := by
  refine ⟨⟨80, rfl⟩, by decide +kernel, ?_⟩
  rw [documented_iff]
  decide +kernel

end OxKv.Lucene
