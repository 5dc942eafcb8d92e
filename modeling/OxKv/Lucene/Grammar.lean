import OxKv.Lib.Peg

/-!
The query grammar (`query/query.pest`).
-/

namespace OxKv.Lucene

inductive Rule where
  | whitespace
  | escapedChar
  | termChar
  | fieldName
  | unquotedTerm
  | quotedTerm
  | phraseContent
  | regexTerm
  | regexContent
  | term
  | fuzzySlop
  | boost
  | modifiedTerm
  | rangeBound
  | incRange
  | excRange
  | rangeQuery
  | fieldQuery
  | must
  | mustNot
  | modifier
  | subQuery
  | singleQuery
  | andOp
  | orOp
  | notOp
  | binaryOp
  | queryItem
  | query
  | main
  | eoi
  deriving DecidableEq, Repr

namespace Grammar

open Peg

def chr (x : Char) : Expr Rule := .str [x]

def choice : List (Expr Rule) → Expr Rule
  | [] => .cls fun _ => false
  | [e] => e
  | e :: es => .alt e (choice es)

def asciiAlpha : Expr Rule := .cls Char.isAlpha

def asciiDigit : Expr Rule := .cls Char.isDigit

def asciiAlphanumeric : Expr Rule := .cls Char.isAlphanum

def kAnd : List Char := ['A', 'N', 'D']

def kOr : List Char := ['O', 'R']

def kNot : List Char := ['N', 'O', 'T']

def kTo : List Char := ['T', 'O']

def reservedMarks : List (Expr Rule) :=
  [.rule .whitespace, chr ':', chr '(', chr ')', chr '[', chr ']', chr '{', chr '}', chr '"',
    chr '^', chr '~', chr '+', chr '!', chr '/']

/-- What a term stops at. -/
def reserved : Expr Rule := choice (reservedMarks ++ [.str kAnd, .str kOr, .str kNot])

def kind : Rule → Kind
  | .whitespace | .termChar | .term | .rangeBound | .rangeQuery | .modifier | .binaryOp | .queryItem
  | .main => .silent
  | .escapedChar | .fieldName | .unquotedTerm | .phraseContent | .regexContent | .fuzzySlop
  | .boost => .atomic
  | .quotedTerm | .regexTerm | .modifiedTerm => .compound
  | .incRange | .excRange | .fieldQuery | .must | .mustNot | .subQuery | .singleQuery | .andOp
  | .orOp | .notOp | .query | .eoi => .normal

def body : Rule → Expr Rule
  | .whitespace => choice [chr ' ', chr '\t', chr '\r', chr '\n', chr '\u3000']
  | .escapedChar => .seq (chr '\\') .any
  | .termChar => .alt (.rule .escapedChar) (.seq (.not reserved) .any)
  | .fieldName => .seq (choice [asciiAlpha, chr '_', .rule .escapedChar])
      (.star (choice [asciiAlphanumeric, chr '_', chr '.', .rule .escapedChar]))
  | .unquotedTerm => .plus (choice [.rule .termChar, chr '*', chr '?'])
  | .quotedTerm => .seq (chr '"') (.seq (.rule .phraseContent) (chr '"'))
  | .phraseContent => .star (.alt (.rule .escapedChar) (.seq (.not (chr '"')) .any))
  | .regexTerm => .seq (chr '/') (.seq (.rule .regexContent) (chr '/'))
  | .regexContent => .star (.alt (.str ['\\', '/']) (.seq (.not (chr '/')) .any))
  | .term => choice [.rule .regexTerm, .rule .quotedTerm, .rule .unquotedTerm]
  | .fuzzySlop => .seq (chr '~') (.star asciiDigit)
  | .boost => .seq (chr '^') (.seq (.plus asciiDigit) (.opt (.seq (chr '.') (.plus asciiDigit))))
  | .modifiedTerm => .seq (.rule .term) (.seq (.opt (.rule .fuzzySlop)) (.opt (.rule .boost)))
  | .rangeBound => .alt (.rule .quotedTerm) (.rule .unquotedTerm)
  | .incRange => .seq (chr '[') (.seq (.rule .rangeBound)
      (.seq (.str kTo) (.seq (.rule .rangeBound) (chr ']'))))
  | .excRange => .seq (chr '{') (.seq (.rule .rangeBound)
      (.seq (.str kTo) (.seq (.rule .rangeBound) (chr '}'))))
  | .rangeQuery => .seq (.alt (.rule .incRange) (.rule .excRange)) (.opt (.rule .boost))
  | .fieldQuery => .seq (.rule .fieldName) (.seq (chr ':')
      (choice [.rule .rangeQuery, .rule .subQuery, .rule .modifiedTerm]))
  | .must => chr '+'
  | .mustNot => chr '-'
  | .modifier => .alt (.rule .must) (.rule .mustNot)
  | .subQuery => .seq (chr '(') (.seq (.rule .query) (.seq (chr ')') (.opt (.rule .boost))))
  | .singleQuery => .seq (.opt (.rule .modifier)) (choice [.rule .fieldQuery, .rule .rangeQuery,
      .rule .modifiedTerm, .rule .subQuery])
  | .andOp => .alt (.str kAnd) (.str ['&', '&'])
  | .orOp => .alt (.str kOr) (.str ['|', '|'])
  | .notOp => .alt (.str kNot) (chr '!')
  | .binaryOp => .alt (.rule .andOp) (.rule .orOp)
  | .queryItem => .seq (.opt (.rule .notOp)) (.rule .singleQuery)
  | .query => .seq (.rule .queryItem) (.star (.seq (.opt (.rule .binaryOp)) (.rule .queryItem)))
  | .main => .seq .soi (.seq (.rule .query) (.rule .eoi))
  | .eoi => .eoi

end Grammar

/-- The grammar of `LuceneParser`. -/
def grammar : Peg.Grammar Rule := ⟨Grammar.kind, Grammar.body, .rule .whitespace⟩

namespace Grammar

open Peg

variable {m : Mode} {c : Cursor} {es : List (Expr Rule)} {e : Expr Rule}

theorem choice_fails (h : ∀ e ∈ es, Eval grammar m e c none) :
    Eval grammar m (choice es) c none := by
  induction es with
  | nil =>
    refine .cls_fail ?_
    cases c.rest.head? <;> exact Bool.false_ne_true
  | cons e es ih =>
    have he := h e List.mem_cons_self
    cases es with
    | nil => exact he
    | cons e' es => exact .alt_right he (ih fun e1 he1 => h e1 (List.mem_cons_of_mem e he1))

theorem choice_matches (es es' : List (Expr Rule)) {x : Cursor × List (ParseTree Rule)}
    (h : ∀ e ∈ es, Eval grammar m e c none) (he : Eval grammar m e c (some x)) :
    Eval grammar m (choice (es ++ e :: es')) c (some x) := by
  induction es with
  | nil =>
    cases es' with
    | nil => exact he
    | cons e' es' => exact .alt_left he
  | cons e1 es ih =>
    have ih := ih fun e2 he2 => h e2 (List.mem_cons_of_mem e1 he2)
    have hrest : ∃ e2 es2, es ++ e :: es' = e2 :: es2 := by
      cases es with
      | nil => exact ⟨e, es', rfl⟩
      | cons e2 es => exact ⟨e2, es ++ e :: es', rfl⟩
    obtain ⟨e2, es2, heq⟩ := hrest
    rw [List.cons_append, heq]
    rw [heq] at ih
    exact .alt_right (h e1 List.mem_cons_self) ih

end Grammar

end OxKv.Lucene
