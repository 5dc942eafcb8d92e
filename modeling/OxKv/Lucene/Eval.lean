import OxKv.Lib.EditDistance
import OxKv.Lucene.Date

/-!
The matcher (`query/json.rs`): a query is compiled once and evaluated on JSON documents.

What the matcher takes from the standard library and from other crates is a parameter, `Externs`.
An object is the list of its entries, with distinct keys.
-/

namespace OxKv.Lucene

/-- Floating point numbers, JSON numbers, regexes, Unicode and the edit distance. -/
structure Externs where
  F64 : Type
  /-- `str::parse::<f64>`. -/
  parseF64 : Text → Option F64
  /-- The difference is below `f64::EPSILON`. -/
  near : F64 → F64 → Bool
  le : F64 → F64 → Bool
  lt : F64 → F64 → Bool
  /-- `serde_json::Number`. -/
  Number : Type
  asF64 : Number → Option F64
  numberText : Number → Text
  Regex : Type
  regexNew : Text → Option Regex
  regexEscape : Text → Text
  isMatch : Regex → Text → Bool
  toLowercase : Text → Text
  isAlphanumeric : Char → Bool
  levenshtein : Text → Text → Nat

inductive Value (ν : Type) where
  | null
  | bool (flag : Bool)
  | number (n : ν)
  | string (text : Text)
  | array (items : List (Value ν))
  | object (entries : List (Text × Value ν))

section Compile

variable (X : Externs)

inductive Bound where
  | num (n : X.F64)
  | str (text : Text)

inductive TermKind where
  | glob (re : Option X.Regex)
  | pattern (re : Option X.Regex)
  | contains (needle : Text)
  | fuzzyToken (target : Text) (slop : Nat)

inductive CompiledExpr where
  | term (kind : TermKind X)
  | field (path : List Text) (expr : CompiledExpr)
  | range (start stop : Bound X) (inclusive : Bool)
  | date (interval : DateInterval)
  | subQuery (query : Group CompiledExpr)

abbrev CompiledItem := Item (CompiledExpr X)

abbrev CompiledQuery := Group (CompiledExpr X)

def parseBound (raw : Text) : Bound X :=
  match X.parseF64 raw with
  | some n => .num n
  | none => .str raw

/-- A glob as an anchored regex that ignores case. -/
def globRegex (pattern : Text) : Option X.Regex :=
  let source := pattern.flatMap fun
    | '*' => ['.', '*']
    | '?' => ['.']
    | other => X.regexEscape [other]
  X.regexNew (['(', '?', 'i', 's', ')', '^'] ++ source ++ ['$'])

def compileTerm (term : TermExpr) : TermKind X :=
  if term.isRegex then .pattern (X.regexNew term.value)
  else if term.isQuoted then .contains (X.toLowercase term.value)
  else match term.fuzzySlop with
    | some slop => .fuzzyToken (X.toLowercase term.value) slop
    | none =>
      if '*' ∈ term.value ∨ '?' ∈ term.value then .glob (globRegex X term.value)
      else .fuzzyToken (X.toLowercase term.value) 2

/-- The loop of `split_field_path` with the segment that is read. -/
def splitFrom (current : Text) : Text → List Text
  | [] => [current]
  | ['\\'] => [current]
  | '\\' :: escaped :: rest => splitFrom (current ++ [escaped]) rest
  | '.' :: rest => current :: splitFrom [] rest
  | other :: rest => splitFrom (current ++ [other]) rest

def splitFieldPath (field : Text) : List Text := splitFrom [] field

mutual

def compileExpr : Expression → CompiledExpr X
  | .term t =>
    match dateTerm t with
    | some interval => .date interval
    | none => .term (compileTerm X t)
  | .field field expr => .field (splitFieldPath field) (compileExpr expr)
  | .range start stop inclusive _ =>
    match dateInterval start stop inclusive with
    | some interval => .date interval
    | none => .range (parseBound X start) (parseBound X stop) inclusive
  | .subQuery query _ => .subQuery (compileQuery query)

def compileQuery : Query → CompiledQuery X
  | .group items => .group (compileItems items)

def compileItems : List QueryItem → List (CompiledItem X)
  | [] => []
  | ⟨pfx, expr, op⟩ :: rest => ⟨pfx, compileExpr expr, op⟩ :: compileItems rest

end

end Compile

/-! ## Leaves -/

section Leaves

variable {ν : Type}

mutual

/-- Some leaf of the document. -/
def scanAnywhere (predicate : Value ν → Bool) : Value ν → Bool
  | .object entries => scanEntries predicate entries
  | .array items => scanItems predicate items
  | .null => predicate .null
  | .bool flag => predicate (.bool flag)
  | .number n => predicate (.number n)
  | .string text => predicate (.string text)

def scanItems (predicate : Value ν → Bool) : List (Value ν) → Bool
  | [] => false
  | v :: rest => scanAnywhere predicate v || scanItems predicate rest

def scanEntries (predicate : Value ν → Bool) : List (Text × Value ν) → Bool
  | [] => false
  | (_, v) :: rest => scanAnywhere predicate v || scanEntries predicate rest

end

def checkArrayOrLeaf (predicate : Value ν → Bool) : Value ν → Bool
  | .array items => items.any predicate
  | v => predicate v

mutual

/-- Some value at the end of a path, through arrays at every step. -/
def resolvePath (predicate : Value ν → Bool) : Value ν → List Text → Bool
  | v, [] => checkArrayOrLeaf predicate v
  | .object entries, head :: tail => resolveEntry predicate entries head tail
  | .array items, head :: tail => resolveItems predicate items head tail
  | _, _ :: _ => false

def resolveItems (predicate : Value ν → Bool) : List (Value ν) → Text → List Text → Bool
  | [], _, _ => false
  | v :: rest, head, tail =>
    resolvePath predicate v (head :: tail) || resolveItems predicate rest head tail

/-- `map.get(head)` and the rest of the path from there. -/
def resolveEntry (predicate : Value ν → Bool) :
    List (Text × Value ν) → Text → List Text → Bool
  | [], _, _ => false
  | (key, v) :: rest, head, tail =>
    if key = head then resolvePath predicate v tail else resolveEntry predicate rest head tail

end

def matchLeafValue (doc : Value ν) (fieldPath : List Text) (predicate : Value ν → Bool) : Bool :=
  if fieldPath = [] then scanAnywhere predicate doc else resolvePath predicate doc fieldPath

def dateLeafMatches (val : Value ν) (interval : DateInterval) : Bool :=
  match val with
  | .string text => (parseDateLiteral text).any fun lit =>
      interval.start ≤ lit.ts && lit.ts < interval.stop
  | _ => false

end Leaves

section Match

variable (X : Externs)

def tokensCi (text : Text) : List Text :=
  (text.splitOnP fun c => !X.isAlphanumeric c).filter (· ≠ [])

def numericLiteral : TermKind X → Option X.F64
  | .contains text => X.parseF64 text
  | .fuzzyToken text _ => X.parseF64 text
  | _ => none

def matchStringKind (kind : TermKind X) (text : Text) : Bool :=
  match kind with
  | .glob (some re) => X.isMatch re text
  | .pattern (some re) => X.isMatch re text
  | .glob none => false
  | .pattern none => false
  | .contains needle => (X.toLowercase text).tails.any needle.isPrefixOf
  | .fuzzyToken target slop => (tokensCi X text).any fun token => X.levenshtein target token ≤ slop

def numberMatches (kind : TermKind X) (value : Option X.F64) (rendered : Text) : Bool :=
  match value, numericLiteral X kind with
  | some value, some termNum => X.near value termNum
  | _, _ => matchStringKind X kind rendered

/-- `bool::to_string`. -/
def boolText (flag : Bool) : Text :=
  if flag then ['t', 'r', 'u', 'e'] else ['f', 'a', 'l', 's', 'e']

def matchTerm (kind : TermKind X) (val : Value X.Number) : Bool :=
  match val with
  | .string text => matchStringKind X kind text
  | .number n => numberMatches X kind (X.asF64 n) (X.numberText n)
  | .bool flag => numberMatches X kind none (boolText flag)
  | _ => false

/-- `Value::as_f64`, or the number a string leaf reads as. -/
def leafNumber (val : Value X.Number) : Option X.F64 :=
  match val with
  | .number n => X.asF64 n
  | .string text => X.parseF64 text
  | _ => none

def textLt : Text → Text → Bool
  | _, [] => false
  | [], _ :: _ => true
  | c :: as, d :: bs => decide (c.toNat < d.toNat) || (c == d && textLt as bs)

def rangeMatches (start stop : Bound X) (inclusive : Bool) (val : Value X.Number) : Bool :=
  match start, stop with
  | .num low, .num high =>
    match leafNumber X val with
    | some v => if inclusive then X.le low v && X.le v high else X.lt low v && X.lt v high
    | none => false
  | .str low, .str high =>
    match val with
    | .string v =>
      if inclusive then !textLt v low && !textLt high v else textLt low v && textLt v high
    | _ => false
  | _, _ => false

end Match

/-! ## Groups

An item is combined with the others by the value of its expression. -/

def evalItem (item : Item Bool) : Bool :=
  match item.pfx with
  | some .mustNot => !item.expr
  | some .not => !item.expr
  | some .must => item.expr
  | none => item.expr

/-- The clauses of `eval_boolean`, with the clause that is built. -/
def clausesFrom {ε : Type} (clause : List (Item ε)) : List (Item ε) → List (List (Item ε))
  | [] => [clause]
  | item :: rest =>
    if item.op = some .or then (clause ++ [item]) :: clausesFrom [] rest
    else clausesFrom (clause ++ [item]) rest

def evalBoolean (items : List (Item Bool)) : Bool :=
  (clausesFrom [] items).any fun clause => clause.all evalItem

/-- The loop of `eval_occurrences`. -/
def occurrencesFrom (hasOptional optionalMatched : Bool) : List (Item Bool) → Bool
  | [] => !hasOptional || optionalMatched
  | ⟨pfx, matched, _⟩ :: rest =>
    match pfx with
    | some .must => if matched then occurrencesFrom hasOptional optionalMatched rest else false
    | some .mustNot => if matched then false else occurrencesFrom hasOptional optionalMatched rest
    | some .not => if matched then false else occurrencesFrom hasOptional optionalMatched rest
    | none => occurrencesFrom true (optionalMatched || matched) rest

def evalOccurrences (items : List (Item Bool)) : Bool := occurrencesFrom false false items

/-- `matches_in` with the values of the items. -/
def combine (items : List (Item Bool)) : Bool :=
  if items = [] then true
  else if items.any fun item => item.op.isSome then evalBoolean items
  else evalOccurrences items

section Eval

variable (X : Externs) (doc : Value X.Number)

mutual

def evalExpr (path : List Text) : CompiledExpr X → Bool
  | .term kind => matchLeafValue doc path (matchTerm X kind)
  | .field sub expr => evalExpr (path ++ sub) expr
  | .range start stop inclusive => matchLeafValue doc path (rangeMatches X start stop inclusive)
  | .date interval => matchLeafValue doc path fun val => dateLeafMatches val interval
  | .subQuery query => matchesIn path query

def matchesIn (path : List Text) : CompiledQuery X → Bool
  | .group items => combine (evalItems path items)

def evalItems (path : List Text) : List (CompiledItem X) → List (Item Bool)
  | [] => []
  | ⟨pfx, expr, op⟩ :: rest => ⟨pfx, evalExpr path expr, op⟩ :: evalItems path rest

end

def eval (query : Query) : Bool := matchesIn X doc [] (compileQuery X query)

end Eval

/-! ## ASCII texts and natural numbers

What the matcher uses from outside, on ASCII texts, natural numbers and queries without regexes and
globs. -/

def parseDecimal (text : Text) : Option Nat :=
  if text ≠ [] ∧ text.all Char.isDigit then
    some (text.foldl (fun n d => n * 10 + (d.toNat - '0'.toNat)) 0)
  else none

def asciiExterns : Externs where
  F64 := Nat
  parseF64 := parseDecimal
  near := fun a b => a == b
  le := fun a b => a ≤ b
  lt := fun a b => a < b
  Number := Nat
  asF64 := some
  numberText := Nat.toDigits 10
  Regex := Empty
  regexNew := fun _ => none
  regexEscape := id
  isMatch := nofun
  toLowercase := List.map Char.toLower
  isAlphanumeric := Char.isAlphanum
  levenshtein := editDistance

end OxKv.Lucene
