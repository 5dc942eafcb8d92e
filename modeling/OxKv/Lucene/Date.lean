import OxKv.Lucene.Ast

/-!
Date literals of the matcher (`query/json.rs`): ISO-8601 shapes as instants and intervals of UTC
seconds. They are read from the bytes of a text. The numbers of a literal have at most four digits,
so that the fixed widths of the source are never left.
-/

namespace OxKv.Lucene

def asBytes (text : Text) : List UInt8 := text.flatMap String.utf8EncodeChar

inductive DatePrecision where
  | year
  | month
  | day
  | minute
  | second
  deriving DecidableEq, Repr

def DatePrecision.atLeastMonth (p : DatePrecision) : Bool := p != .year

structure DateLit where
  /-- The first second of the period. -/
  ts : Int
  precision : DatePrecision
  year : Int
  month : Nat
  deriving DecidableEq, Repr

def secsPerDay : Int := 86400

/-- The byte of an ASCII character. -/
def ascii (c : Char) : UInt8 := UInt8.ofNat c.toNat

def isAsciiDigit (c : UInt8) : Bool := 48 ≤ c && c ≤ 57

def digit (b : List UInt8) (i : Nat) : Option Nat :=
  match b[i]? with
  | some c => if isAsciiDigit c then some (c.toNat - 48) else none
  | none => none

def digits (b : List UInt8) (i n : Nat) : Option Nat :=
  (List.range n).foldlM (fun acc k => (digit b (i + k)).map (acc * 10 + ·)) 0

def expect (b : List UInt8) (i : Nat) (c : Char) : Option Unit :=
  if b[i]? = some (ascii c) then some () else none

/-- Days since 1970-01-01. The division of the source rounds towards zero. -/
def daysFromCivil (y : Int) (m d : Nat) : Int :=
  let y := if m ≤ 2 then y - 1 else y
  let era := (if 0 ≤ y then y else y - 399).tdiv 400
  let yoe := y - era * 400
  let mp := (m + 9) % 12
  let doy : Int := ((153 * mp + 2) / 5 : Nat) + d - 1
  let doe := yoe * 365 + yoe.tdiv 4 - yoe.tdiv 100 + doy
  era * 146097 + doe - 719468

def DateLit.nextStart (lit : DateLit) : Int :=
  match lit.precision with
  | .year => daysFromCivil (lit.year + 1) 1 1 * secsPerDay
  | .month =>
    if lit.month = 12 then daysFromCivil (lit.year + 1) 1 1 * secsPerDay
    else daysFromCivil lit.year (lit.month + 1) 1 * secsPerDay
  | .day => lit.ts + secsPerDay
  | .minute => lit.ts + 60
  | .second => lit.ts + 1

def parseYmd (b : List UInt8) : Option (Int × Nat × Nat) :=
  if b.length < 4 then none
  else do
    let year ← digits b 0 4
    if b.length = 4 then return (year, 1, 1)
    expect b 4 '-'
    let month ← digits b 5 2
    if !(1 ≤ month && month ≤ 12) then none
    if b.length = 7 then return (year, month, 1)
    expect b 7 '-'
    let day ← digits b 8 2
    if !(1 ≤ day && day ≤ 31) then none
    return (year, month, day)

/-- The offset behind the time at byte `i`, in seconds to subtract. -/
def parseZone (b : List UInt8) (i : Nat) : Option Int :=
  match b[i]? with
  | none => some 0
  | some z =>
    if (z = ascii 'Z' ∨ z = ascii 'z') ∧ i + 1 = b.length then some 0
    else if z = ascii '+' ∨ z = ascii '-' then do
      let oh ← digits b (i + 1) 2
      if 23 < oh ∨ b[i + 3]? ≠ some (ascii ':') then none
      let om ← digits b (i + 4) 2
      if 59 < om ∨ i + 6 ≠ b.length then none
      let mag : Int := oh * 3600 + om * 60
      return if z = ascii '-' then -mag else mag
    else none

/-- The place behind the fraction that may stand at byte `i`. -/
def skipFraction (b : List UInt8) (i : Nat) : Nat :=
  if b[i]? = some (ascii '.') then i + 1 + ((b.drop (i + 1)).takeWhile isAsciiDigit).length else i

def parseTimeZone (b : List UInt8) : Option (Int × DatePrecision) := do
  if b[10]? ≠ some (ascii 'T') ∧ b[10]? ≠ some (ascii 't') ∧ b[10]? ≠ some (ascii ' ') then none
  let hour ← digits b 11 2
  if 23 < hour ∨ b[13]? ≠ some (ascii ':') then none
  let minute ← digits b 14 2
  if 59 < minute then none
  let secs : Int := hour * 3600 + minute * 60
  if b[16]? = some (ascii ':') then
    let second ← digits b 17 2
    if 59 < second then none
    let offset ← parseZone b (skipFraction b 19)
    return (secs + second - offset, .second)
  else
    let offset ← parseZone b (skipFraction b 16)
    return (secs - offset, .minute)

def parseDateLiteral (raw : Text) : Option DateLit := do
  let b := asBytes raw
  let (year, month, day) ← parseYmd b
  let ts := daysFromCivil year month day * secsPerDay
  if 10 < b.length then
    let (secs, precision) ← parseTimeZone b
    return ⟨ts + secs, precision, year, month⟩
  else
    let precision : DatePrecision :=
      if b.length ≤ 4 then .year else if b.length ≤ 7 then .month else .day
    return ⟨ts, precision, year, month⟩

/-- From `start` up to, but not with, `stop`. -/
structure DateInterval where
  start : Int
  stop : Int
  deriving DecidableEq, Repr

def dateInterval (start stop : Text) (inclusive : Bool) : Option DateInterval := do
  let lo ← parseDateLiteral start
  let hi ← parseDateLiteral stop
  return ⟨if inclusive then lo.ts else lo.nextStart, if inclusive then hi.nextStart else hi.ts⟩

/-- The period of a plain term, when it is given at least to the month. -/
def dateTerm (term : TermExpr) : Option DateInterval :=
  if term.isQuoted || term.isRegex || term.fuzzySlop.isSome then none
  else do
    let lit ← parseDateLiteral term.value
    if lit.precision.atLeastMonth then some ⟨lit.ts, lit.nextStart⟩ else none

end OxKv.Lucene
