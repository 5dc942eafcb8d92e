import OxKv.Lucene.Ast
import OxKv.Lucene.Grammar

/-!
From a parse tree to a query (`query/mod.rs`).
-/

namespace OxKv.Lucene

open Peg

/-- The name of a rule, as the errors print it. -/
def Rule.name : Rule → String
  | .whitespace => "WHITESPACE"
  | .escapedChar => "escaped_char"
  | .termChar => "term_char"
  | .fieldName => "field_name"
  | .unquotedTerm => "unquoted_term"
  | .quotedTerm => "quoted_term"
  | .phraseContent => "phrase_content"
  | .regexTerm => "regex_term"
  | .regexContent => "regex_content"
  | .term => "term"
  | .fuzzySlop => "fuzzy_slop"
  | .boost => "boost"
  | .modifiedTerm => "modified_term"
  | .rangeBound => "range_bound"
  | .incRange => "inc_range"
  | .excRange => "exc_range"
  | .rangeQuery => "range_query"
  | .fieldQuery => "field_query"
  | .must => "must"
  | .mustNot => "must_not"
  | .modifier => "modifier"
  | .subQuery => "sub_query"
  | .singleQuery => "single_query"
  | .andOp => "and_op"
  | .orOp => "or_op"
  | .notOp => "not_op"
  | .binaryOp => "binary_op"
  | .queryItem => "query_item"
  | .query => "query"
  | .main => "main"
  | .eoi => "EOI"

def BinaryOp.name : BinaryOp → String
  | .and => "And"
  | .or => "Or"

inductive ParseError where
  /-- The report of the grammar. -/
  | syntaxError
  | message (text : String)
  deriving DecidableEq, Repr

abbrev AstResult := Except ParseError

def invalid (rule : Rule) : ParseError :=
  .message ("malformed parse tree: expected a `" ++ rule.name ++ "` node")

def boostOf (pair : ParseTree Rule) : Option Text := some (pair.text.dropWhile (· == '^'))

/-- A backslash gives way to the character behind it. -/
def unescape : Text → Text
  | [] => []
  | ['\\'] => ['\\']
  | '\\' :: escaped :: rest => escaped :: unescape rest
  | c :: rest => c :: unescape rest

theorem unescape_cons {c : Char} (h : c ≠ '\\') (rest : Text) :
    unescape (c :: rest) = c :: unescape rest := by
  rw [unescape]
  · exact fun hc => absurd hc h
  · exact fun _ _ hc => absurd hc h

theorem unescape_of_notMem {raw : Text} (h : '\\' ∉ raw) : unescape raw = raw := by
  induction raw with
  | nil => rfl
  | cons c rest ih =>
    obtain ⟨hc, hrest⟩ := not_or.mp (mt List.mem_cons.mpr h)
    rw [unescape_cons (Ne.symm hc), ih hrest]

/-- `str::parse::<u8>` on digits. -/
def parseU8 (digits : Text) : Option Nat :=
  let n := digits.foldl (fun n d => n * 10 + (d.toNat - '0'.toNat)) 0
  if n < 256 then some n else none

/-- The text of the first node of a pair's children, without its escapes. -/
def firstInner (pair : ParseTree Rule) : Text :=
  match pair.children with
  | [] => []
  | p :: _ => unescape p.text

def parseModifiedTerm (pair : ParseTree Rule) : TermExpr :=
  pair.children.foldl (fun t inner =>
    match inner.rule with
    | .unquotedTerm => { t with value := unescape inner.text }
    | .quotedTerm => { t with isQuoted := true, value := firstInner inner }
    | .regexTerm => { t with isRegex := true, value := firstInner inner }
    | .fuzzySlop =>
      let slopStr := inner.text.dropWhile (· == '~')
      { t with fuzzySlop := if slopStr = [] then some 2 else parseU8 slopStr }
    | .boost => { t with boost := boostOf inner }
    | _ => t) (.plain [])

/-- The boost that follows a range, among the siblings behind it. -/
def siblingBoost (siblings : List (ParseTree Rule)) : Option Text :=
  match siblings with
  | [] => none
  | p :: _ => if p.rule = .boost then boostOf p else none

def rangeParts (pair : ParseTree Rule) (boost : Option Text) (inclusive : Bool) : Expression :=
  let bound : Option (ParseTree Rule) → Text
    | none => []
    | some p => unescape p.text
  .range (bound pair.children[0]?) (bound pair.children[1]?) inclusive boost

def setLastOp (items : List QueryItem) (op : BinaryOp) : List QueryItem :=
  match items with
  | [] => []
  | [last] => [{ last with op := some op }]
  | item :: rest => item :: setLastOp rest op

def ensureNoDanglingOperator (items : List QueryItem) : AstResult Unit :=
  match items.getLast? with
  | some ⟨_, _, some op⟩ => .error (.message
      ("dangling boolean operator `" ++ op.name ++ "` with no following expression"))
  | _ => .ok ()

mutual

def parseQuery : ParseTree Rule → AstResult Query
  | .node _ _ inner => do
    let items ← queryItems inner none []
    ensureNoDanglingOperator items
    return .group items

/-- The loop of `parse_query`. -/
def queryItems : List (ParseTree Rule) → Option Prefix → List QueryItem → AstResult (List QueryItem)
  | [], _, items => .ok items
  | inner :: rest, currentPrefix, items =>
    match inner.rule with
    | .notOp => queryItems rest (some .not) items
    | .singleQuery => do
      let (pfx, expr) ← parseSingleQuery inner
      queryItems rest none (items ++ [⟨currentPrefix.or pfx, expr, none⟩])
    | .andOp => queryItems rest currentPrefix (setLastOp items .and)
    | .orOp => queryItems rest currentPrefix (setLastOp items .or)
    | _ => queryItems rest currentPrefix items

def parseSingleQuery : ParseTree Rule → AstResult (Option Prefix × Expression)
  | .node _ _ nodes => do
    let (pfx, expr) ← singleNodes nodes none none
    match expr with
    | some expr => return (pfx, expr)
    | none => .error (invalid .singleQuery)

/-- The loop of `parse_single_query`. -/
def singleNodes : List (ParseTree Rule) → Option Prefix → Option Expression →
    AstResult (Option Prefix × Option Expression)
  | [], pfx, expr => .ok (pfx, expr)
  | node :: rest, pfx, expr =>
    match node.rule with
    | .must => singleNodes rest (some .must) expr
    | .mustNot => singleNodes rest (some .mustNot) expr
    | .fieldQuery => do
      let e ← parseFieldQuery node
      singleNodes rest pfx (some e)
    | .subQuery => do
      let e ← parseSubQuery node
      singleNodes rest pfx (some e)
    | .modifiedTerm => singleNodes rest pfx (some (.term (parseModifiedTerm node)))
    | .incRange => singleNodes rest pfx (some (rangeParts node (siblingBoost rest) true))
    | .excRange => singleNodes rest pfx (some (rangeParts node (siblingBoost rest) false))
    | _ => singleNodes rest pfx expr

def parseFieldQuery : ParseTree Rule → AstResult Expression
  | .node _ _ [] => .error (invalid .fieldName)
  | .node _ _ [name] =>
    if name.rule = .fieldName then .error (invalid .fieldQuery) else .error (invalid .fieldName)
  | .node _ _ (name :: value :: rest) =>
    if name.rule = .fieldName then
      match value.rule with
      | .modifiedTerm => .ok (.field name.text (.term (parseModifiedTerm value)))
      | .incRange => .ok (.field name.text (rangeParts value (siblingBoost rest) true))
      | .excRange => .ok (.field name.text (rangeParts value (siblingBoost rest) false))
      | .subQuery => (parseSubQuery value).map (.field name.text)
      | _ => .error (invalid .fieldQuery)
    else .error (invalid .fieldName)

def parseSubQuery : ParseTree Rule → AstResult Expression
  | .node _ _ [] => .error (invalid .query)
  | .node _ _ (query :: rest) => do
    let q ← parseQuery query
    return .subQuery q (siblingBoost rest)

end

def buildAst : List (ParseTree Rule) → AstResult Query
  | [] => .ok (.group [])
  | pair :: rest => if pair.rule = .query then parseQuery pair else buildAst rest

/-- Outside of every atomic rule and lookahead. -/
def top : Mode := ⟨.nonAtomic, false⟩

def atom : Mode := ⟨.atomic, false⟩

theorem atom_atomic : atom.atomicity ≠ .nonAtomic := nofun

def inTerm : Mode := top.inside .compound

theorem inTerm_atomic : inTerm.atomicity ≠ .nonAtomic := nofun

/-- What becomes of the outcome of the grammar. -/
def ofOutcome : Outcome Rule → AstResult Query
  | none => .error .syntaxError
  | some (_, pairs) => buildAst pairs

/-- `LuceneParser::parse` and `build_ast`; `none` when the fuel does not suffice. -/
def parseWith (fuel : Nat) (input : Text) : Option (AstResult Query) :=
  (run grammar fuel top (.rule .main) (.start input)).map ofOutcome

/-- What `parse` returns. -/
def Parses (input : Text) (result : AstResult Query) : Prop :=
  ∃ fuel, parseWith fuel input = some result

/-! ## Inputs of one item -/

section OneItem

variable {input : Text} {result result' : AstResult Query} {ts : List (ParseTree Rule)}
  {items : List QueryItem}

theorem parses_iff :
    Parses input result ↔
      ∃ out, Eval grammar top (.rule .main) (.start input) out ∧ ofOutcome out = result := by
  constructor
  · rintro ⟨fuel, h⟩
    obtain ⟨out, hrun, hout⟩ := Option.map_eq_some_iff.mp h
    exact ⟨out, ⟨fuel, hrun⟩, hout⟩
  · rintro ⟨out, ⟨fuel, hrun⟩, hout⟩
    exact ⟨fuel, Option.map_eq_some_iff.mpr ⟨out, hrun, hout⟩⟩

theorem Parses.unique (h : Parses input result) (h' : Parses input result') :
    result = result' := by
  obtain ⟨out, hout, rfl⟩ := parses_iff.mp h
  obtain ⟨out', hout', rfl⟩ := parses_iff.mp h'
  rw [hout.unique hout']

def NoBlank (input : Text) : Prop := look grammar 9 (.rule .whitespace) input.head? = .fails

theorem NoBlank.skip {m : Mode} {k : Nat} (h : NoBlank input) :
    Eval grammar m .skip ⟨k, input⟩ (some (⟨k, input⟩, [])) :=
  .skip_none (.of_fails 9 rfl h)

theorem skip_at_end {m : Mode} (k : Nat) :
    Eval grammar m .skip ⟨k, []⟩ (some (⟨k, []⟩, [])) :=
  .of_idle 12 rfl rfl

theorem buildAst_cons (text : Text) (ts rest : List (ParseTree Rule)) :
    buildAst (.node .query text ts :: rest) = do
      let items ← queryItems ts none []
      ensureNoDanglingOperator items
      return .group items := by
  have hrule : (ParseTree.node Rule.query text ts).rule = .query := rfl
  rw [buildAst, if_pos hrule, parseQuery]

theorem buildAst_query {q : Query} {text : Text} {rest : List (ParseTree Rule)}
    (h : buildAst (.node .query text ts :: rest) = .ok q) :
    ∃ items, queryItems ts none [] = .ok items ∧ q = .group items := by
  rw [buildAst_cons] at h
  cases hi : queryItems ts none [] with
  | error e =>
    rw [hi] at h
    cases h
  | ok items =>
    rw [hi] at h
    change (ensureNoDanglingOperator items >>= fun _ => .ok (.group items)) = .ok q at h
    cases he : ensureNoDanglingOperator items with
    | error e =>
      rw [he] at h
      cases h
    | ok u =>
      rw [he] at h
      cases h
      exact ⟨items, rfl, rfl⟩

/-- An item up to the end of the input is the whole query. -/
theorem parses_of_item {k : Nat} {p : Option Prefix} {e : Expression} (hin : NoBlank input)
    (h : Eval grammar top (.rule .queryItem) (.start input) (some (⟨k, []⟩, ts)))
    (hts : queryItems ts none [] = .ok [⟨p, e, none⟩]) :
    Parses input (.ok (.group [⟨p, e, none⟩])) := by
  have hquery : Eval grammar top (.rule .query) ⟨0, input⟩
      (some (⟨k, []⟩, [.node .query input ts])) := by
    have hstar : Eval grammar top
        (.star (.seq (.opt (.rule .binaryOp)) (.rule .queryItem))) ⟨k, []⟩
        (some (⟨k, []⟩, [])) := .of_idle 60 rfl rfl
    have hbody := Eval.seq h (skip_at_end k) hstar
    rw [Option.map_some, after, List.append_nil] at hbody
    exact .node_end rfl hbody
  have heoi : Eval grammar top (.rule .eoi) ⟨k, []⟩
      (some (⟨k, []⟩, [.node .eoi [] []])) := .node_end rfl (.eoi rfl)
  have hmain := Eval.silent (G := grammar) (m := top) (r := .main) rfl
    (.seq (.soi rfl) hin.skip (.seq hquery (skip_at_end k) heoi))
  refine parses_iff.mpr ⟨_, hmain, ?_⟩
  show buildAst [.node .query input ts, .node .eoi [] []] = _
  rw [buildAst_cons, hts]
  rfl

/-- An input that does not begin with an item is an error. -/
theorem parses_syntaxError (hin : NoBlank input)
    (h : Eval grammar top (.rule .queryItem) (.start input) none) :
    Parses input (.error .syntaxError) := by
  have hquery : Eval grammar top (.rule .query) (.start input) none := .rule_fail (.seq_left h)
  exact parses_iff.mpr ⟨none, .rule_fail (.seq (.soi rfl) hin.skip (.seq_left hquery)), rfl⟩

/-- What is accepted begins with an item, from which the first items of the query come. -/
theorem Parses.begins (hin : NoBlank input) (h : Parses input (.ok (.group items))) :
    ∃ c t1 t2, Eval grammar top (.rule .queryItem) (.start input) (some (c, t1)) ∧
      queryItems (t1 ++ t2) none [] = .ok items := by
  obtain ⟨_ | ⟨c, pairs⟩, hmain, hout⟩ := parses_iff.mp h
  · cases hout
  obtain ⟨⟨d, ts⟩, hbody, hwrap⟩ := hmain.rule_inv
  cases hwrap
  obtain ⟨c1, t1, c2, t2, t, hsoi, hskip, hrest, rfl⟩ := hbody.seq_inv
  cases hsoi.unique (.soi rfl)
  cases hskip.unique hin.skip
  obtain ⟨c3, t3, c4, t4, t', hquery, -, -, rfl⟩ := hrest.seq_inv
  obtain ⟨⟨d', ts⟩, hqbody, hqwrap⟩ := hquery.rule_inv
  cases hqwrap
  obtain ⟨c5, t5, c6, t6, t'', hitem, -, -, rfl⟩ := hqbody.seq_inv
  obtain ⟨items', hitems, heq⟩ := buildAst_query hout
  cases heq
  exact ⟨c5, t5, t'', hitem, hitems⟩

end OneItem

/-! ## The first item -/

theorem setLastOp_cons (item : QueryItem) (items : List QueryItem) (op : BinaryOp) :
    ∃ item' items', setLastOp (item :: items) op = item' :: items' ∧ item'.pfx = item.pfx ∧
      item'.expr = item.expr := by
  cases items with
  | nil => exact ⟨_, _, rfl, rfl, rfl⟩
  | cons next rest => exact ⟨item, setLastOp (next :: rest) op, rfl, rfl, rfl⟩

/-- The first item keeps its prefix and its expression. -/
theorem queryItems_first (ts : List (ParseTree Rule)) (cur : Option Prefix) (item : QueryItem)
    (items out : List QueryItem) (h : queryItems ts cur (item :: items) = .ok out) :
    ∃ item' items', out = item' :: items' ∧ item'.pfx = item.pfx ∧ item'.expr = item.expr := by
  induction ts generalizing cur item items with
  | nil =>
    cases h
    exact ⟨item, items, rfl, rfl, rfl⟩
  | cons t ts ih =>
    rw [queryItems] at h
    split at h
    · exact ih _ _ _ h
    · cases hs : parseSingleQuery t with
      | error e => rw [hs] at h; cases h
      | ok x => rw [hs] at h; exact ih _ _ _ h
    · obtain ⟨item1, items1, heq, hp, he⟩ := setLastOp_cons item items .and
      rw [heq] at h
      obtain ⟨item', items', hout, hp', he'⟩ := ih _ _ _ h
      exact ⟨item', items', hout, hp'.trans hp, he'.trans he⟩
    · obtain ⟨item1, items1, heq, hp, he⟩ := setLastOp_cons item items .or
      rw [heq] at h
      obtain ⟨item', items', hout, hp', he'⟩ := ih _ _ _ h
      exact ⟨item', items', hout, hp'.trans hp, he'.trans he⟩
    · exact ih _ _ _ h

theorem queryItems_of_single {text : Text} {ts : List (ParseTree Rule)} {p : Option Prefix}
    {e : Expression} (h : parseSingleQuery (.node .singleQuery text ts) = .ok (p, e)) :
    queryItems [.node .singleQuery text ts] none [] = .ok [⟨p, e, none⟩] := by
  rw [queryItems]
  change (parseSingleQuery (.node .singleQuery text ts) >>= fun x =>
    queryItems [] none ([] ++ [⟨none.or x.1, x.2, none⟩])) = _
  rw [h]
  rfl

/-- Where the one item of a query that begins with a single query comes from. -/
theorem queryItems_single {text : Text} {ts rest : List (ParseTree Rule)} {e : Expression}
    (h : queryItems (.node .singleQuery text ts :: rest) none [] = .ok [⟨none, e, none⟩]) :
    parseSingleQuery (.node .singleQuery text ts) = .ok (none, e) := by
  change (parseSingleQuery (.node .singleQuery text ts) >>= fun x =>
    queryItems rest none ([] ++ [⟨none.or x.1, x.2, none⟩])) = _ at h
  cases hs : parseSingleQuery (.node .singleQuery text ts) with
  | error err =>
    rw [hs] at h
    cases h
  | ok x =>
    rw [hs] at h
    obtain ⟨item, items, heq, hpfx, hexpr⟩ := queryItems_first _ _ _ _ _ h
    cases heq
    have hx : x.1 = none := hpfx.symm
    have he : x.2 = e := hexpr.symm
    rw [← he, ← hx]

/-- The prefix that waits for an item is the one of the first item. -/
theorem queryItems_waiting (ts : List (ParseTree Rule)) (out : List QueryItem)
    (h : queryItems ts (some .not) [] = .ok out) :
    out = [] ∨ ∃ item' items', out = item' :: items' ∧ item'.pfx = some .not := by
  induction ts with
  | nil =>
    cases h
    exact .inl rfl
  | cons t ts ih =>
    rw [queryItems] at h
    split at h
    · exact ih h
    · cases hs : parseSingleQuery t with
      | error e => rw [hs] at h; cases h
      | ok x =>
        rw [hs] at h
        obtain ⟨item', items', hout, hp, -⟩ := queryItems_first _ _ _ _ _ h
        exact .inr ⟨item', items', hout, hp⟩
    · exact ih h
    · exact ih h
    · exact ih h

end OxKv.Lucene
