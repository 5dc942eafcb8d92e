import OxKv.Lib.Checked

/-!
Compact JSON over bytes: strings, natural numbers and arrays without blanks, as a serializer
writes them, and readers for what it wrote.

A reader takes bytes and returns a value and the bytes behind it. `Reads valid p w` says that
`p` reads back every valid value that `w` wrote, when a byte that is no digit follows: a number
ends only there.

* `reads_nat`, `reads_string`: numbers and strings are read back;
* `Reads.list`, `Reads.member`: arrays and members of objects;
* `stringJson_ne_zero`, `natJson_ne_zero`, `listJson_ne_zero`: no zero byte is written.
-/

namespace CompactJson

variable {α β : Type}

abbrev Reader (α : Type) := List UInt8 → Option (α × List UInt8)

def lit : List UInt8 → List UInt8 → Option (List UInt8)
  | [], bytes => some bytes
  | c :: cs, b :: bytes => if c = b then lit cs bytes else none
  | _ :: _, [] => none

@[simp] theorem lit_append (cs rest : List UInt8) : lit cs (cs ++ rest) = some rest := by
  induction cs with
  | nil => rfl
  | cons c cs ih => rw [List.cons_append, lit, if_pos rfl, ih]

def isDigit (b : UInt8) : Bool := decide (48 ≤ b.toNat) && decide (b.toNat ≤ 57)

/-- What was written is read back in front of a byte that is no digit. -/
def Reads (valid : α → Prop) (p : Reader α) (w : α → List UInt8) : Prop :=
  ∀ a, valid a → ∀ c rest, isDigit c = false → p (w a ++ c :: rest) = some (a, c :: rest)

/-! ## Numbers -/

def natJson (n : Nat) : List UInt8 := (Nat.toDigits 10 n).map fun c => UInt8.ofNat c.toNat

def readDigits (acc : Nat) : List UInt8 → Nat × List UInt8
  | [] => (acc, [])
  | b :: rest =>
    if isDigit b then readDigits (10 * acc + (b.toNat - 48)) rest else (acc, b :: rest)

def readNat (bound : Nat) : Reader Nat
  | [] => none
  | b :: rest =>
    if isDigit b then
      let (n, rest) := readDigits 0 (b :: rest)
      if n < bound then some (n, rest) else none
    else none

theorem natJson_of_lt {n : Nat} (h : n < 10) : natJson n = [UInt8.ofNat (48 + n)] := by
  rw [natJson, Nat.toDigits_of_lt_base h]
  revert n
  decide

theorem natJson_of_le {n : Nat} (h : 10 ≤ n) :
    natJson n = natJson (n / 10) ++ [UInt8.ofNat (48 + n % 10)] := by
  have hlast := natJson_of_lt (Nat.mod_lt n (by decide : 0 < 10))
  rw [natJson, Nat.toDigits_of_lt_base (Nat.mod_lt n (by decide))] at hlast
  rw [natJson, Nat.toDigits_of_base_le (by decide) h, List.map_append, natJson, hlast]

theorem toNat_digit {d : Nat} (h : d < 10) : (UInt8.ofNat (48 + d)).toNat = 48 + d := by
  rw [UInt8.toNat_ofNat']
  omega

theorem isDigit_digit {d : Nat} (h : d < 10) : isDigit (UInt8.ofNat (48 + d)) = true := by
  rw [isDigit, toNat_digit h]
  simp
  omega

/-- The digits of a number are taken in. -/
theorem readDigits_natJson (n acc : Nat) (rest : List UInt8) :
    readDigits acc (natJson n ++ rest) =
      readDigits (10 ^ (natJson n).length * acc + n) rest := by
  induction n using Nat.strongRecOn generalizing acc rest with
  | ind n ih =>
    rcases Nat.lt_or_ge n 10 with hlt | hge
    · rw [natJson_of_lt hlt, List.singleton_append, readDigits, if_pos (isDigit_digit hlt),
        toNat_digit hlt, Nat.add_sub_cancel_left]
      simp
    · have hdigit := Nat.mod_lt n (by decide : 0 < 10)
      rw [natJson_of_le hge, List.append_assoc, ih (n / 10) (by omega), List.singleton_append,
        readDigits, if_pos (isDigit_digit hdigit), toNat_digit hdigit, Nat.add_sub_cancel_left,
        List.length_append, List.length_singleton, Nat.pow_succ]
      congr 1
      have hdiv := Nat.div_add_mod n 10
      generalize 10 ^ (natJson (n / 10)).length = p
      rw [Nat.mul_comm p 10, Nat.mul_assoc, Nat.mul_add]
      omega

theorem natJson_cons (n : Nat) : ∃ d, d < 10 ∧ ∃ rest, natJson n = UInt8.ofNat (48 + d) :: rest := by
  induction n using Nat.strongRecOn with
  | ind n ih =>
    rcases Nat.lt_or_ge n 10 with hlt | hge
    · exact ⟨n, hlt, [], natJson_of_lt hlt⟩
    · obtain ⟨d, hd, rest, heq⟩ := ih (n / 10) (by omega)
      refine ⟨d, hd, rest ++ [UInt8.ofNat (48 + n % 10)], ?_⟩
      rw [natJson_of_le hge, heq, List.cons_append]

theorem reads_nat (bound : Nat) : Reads (· < bound) (readNat bound) natJson := by
  intro n hn c rest hc
  obtain ⟨d, hd, ds, hcons⟩ := natJson_cons n
  have hread := readDigits_natJson n 0 (c :: rest)
  rw [Nat.mul_zero, Nat.zero_add, readDigits, hc, if_neg Bool.false_ne_true] at hread
  rw [hcons, List.cons_append] at hread ⊢
  rw [readNat, if_pos (isDigit_digit hd), hread]
  exact if_pos hn

theorem natJson_ne_zero {n : Nat} {b : UInt8} (h : b ∈ natJson n) : b ≠ 0 := by
  induction n using Nat.strongRecOn with
  | ind n ih =>
    have hdigit : ∀ {d : Nat}, d < 10 → UInt8.ofNat (48 + d) ≠ 0 := by
      intro d hd hzero
      have htoNat := toNat_digit hd
      rw [hzero, UInt8.toNat_zero] at htoNat
      omega
    rcases Nat.lt_or_ge n 10 with hlt | hge
    · rw [natJson_of_lt hlt, List.mem_singleton] at h
      rw [h]
      exact hdigit hlt
    · rw [natJson_of_le hge, List.mem_append, List.mem_singleton] at h
      rcases h with h | rfl
      · exact ih (n / 10) (by omega) h
      · exact hdigit (Nat.mod_lt n (by decide))

/-! ## Strings -/

def hexDigit (d : Nat) : UInt8 := if d < 10 then UInt8.ofNat (48 + d) else UInt8.ofNat (87 + d)

def hexValue (b : UInt8) : Option Nat :=
  if isDigit b then some (b.toNat - 48)
  else if 97 ≤ b.toNat ∧ b.toNat ≤ 102 then some (b.toNat - 87)
  else none

theorem hexValue_hexDigit {d : Nat} (h : d < 16) : hexValue (hexDigit d) = some d := by
  revert d
  decide

/-- The letter of a short escape and the byte it stands for. -/
def shortEscapes : List (UInt8 × UInt8) :=
  [(0x22, 0x22), (0x5c, 0x5c), (0x62, 0x08), (0x66, 0x0c), (0x6e, 0x0a), (0x72, 0x0d), (0x74, 0x09)]

def escByte (b : UInt8) : List UInt8 :=
  match shortEscapes.find? (·.2 == b) with
  | some (letter, _) => [0x5c, letter]
  | none =>
    if b.toNat < 32 then [0x5c, 0x75, 0x30, 0x30, hexDigit (b.toNat / 16), hexDigit (b.toNat % 16)]
    else [b]

/-- A string, from the opening to the closing quote. -/
def stringJson (s : List UInt8) : List UInt8 := 0x22 :: (s.flatMap escByte ++ [0x22])

/-- One byte of a string, behind a backslash. -/
def readEscape : Reader UInt8
  | 0x75 :: 0x30 :: 0x30 :: hi :: lo :: rest => do
    let hi ← hexValue hi
    let lo ← hexValue lo
    some (UInt8.ofNat (16 * hi + lo), rest)
  | letter :: rest => (shortEscapes.find? (·.1 == letter)).map fun e => (e.2, rest)
  | [] => none

def readChars : Nat → Reader (List UInt8)
  | 0, _ => none
  | _ + 1, [] => none
  | fuel + 1, b :: rest =>
    if b = 0x22 then some ([], rest)
    else do
      let (b, rest) ← if b = 0x5c then readEscape rest
        else if b.toNat < 32 then none else some (b, rest)
      let (s, rest) ← readChars fuel rest
      some (b :: s, rest)

def readString : Reader (List UInt8)
  | 0x22 :: rest => readChars rest.length rest
  | _ => none

/-- How a byte is written: with a short escape, with its number, or as it is. -/
theorem escByte_cases (b : UInt8) :
    (∃ letter, (letter, b) ∈ shortEscapes ∧ escByte b = [0x5c, letter]) ∨
      (b.toNat < 32 ∧ escByte b =
        [0x5c, 0x75, 0x30, 0x30, hexDigit (b.toNat / 16), hexDigit (b.toNat % 16)]) ∨
      (32 ≤ b.toNat ∧ b ≠ 0x22 ∧ b ≠ 0x5c ∧ escByte b = [b]) := by
  unfold escByte
  cases hfind : shortEscapes.find? (·.2 == b) with
  | some e =>
    obtain ⟨letter, b'⟩ := e
    have hb : b' = b := by simpa using List.find?_some hfind
    cases hb
    exact .inl ⟨letter, List.mem_of_find?_eq_some hfind, rfl⟩
  | none =>
    right
    have hne := List.find?_eq_none.mp hfind
    dsimp only
    split
    · rename_i hlt
      exact .inl ⟨hlt, rfl⟩
    · refine .inr ⟨by omega, ?_, ?_, rfl⟩
      · rintro rfl
        exact hne (0x22, 0x22) (by decide) rfl
      · rintro rfl
        exact hne (0x5c, 0x5c) (by decide) rfl

theorem readEscape_short {letter b : UInt8} (h : (letter, b) ∈ shortEscapes) (rest : List UInt8) :
    readEscape (letter :: rest) = some (b, rest) := by
  simp only [shortEscapes, List.mem_cons, List.not_mem_nil, or_false, Prod.mk.injEq] at h
  rcases h with ⟨rfl, rfl⟩ | ⟨rfl, rfl⟩ | ⟨rfl, rfl⟩ | ⟨rfl, rfl⟩ | ⟨rfl, rfl⟩ | ⟨rfl, rfl⟩ |
    ⟨rfl, rfl⟩ <;> rfl

theorem readEscape_number (b : UInt8) (rest : List UInt8) :
    readEscape (0x75 :: 0x30 :: 0x30 :: hexDigit (b.toNat / 16) :: hexDigit (b.toNat % 16) :: rest) =
      some (b, rest) := by
  have hb := b.toNat_lt
  rw [readEscape, hexValue_hexDigit (show b.toNat / 16 < 16 by omega),
    hexValue_hexDigit (Nat.mod_lt _ (by decide))]
  have hsum : UInt8.ofNat (16 * (b.toNat / 16) + b.toNat % 16) = b := by
    rw [Nat.div_add_mod, UInt8.ofNat_toNat]
  simp only [Option.bind_eq_bind, Option.bind_some, hsum]

theorem readChars_escByte (b : UInt8) (fuel : Nat) (rest : List UInt8) :
    readChars (fuel + 1) (escByte b ++ rest) =
      (readChars fuel rest).map fun (s, rest) => (b :: s, rest) := by
  rcases escByte_cases b with ⟨letter, hmem, hesc⟩ | ⟨-, hesc⟩ | ⟨hge, hquote, hslash, hesc⟩
  · rw [hesc, List.cons_append, readChars, if_neg (by decide), if_pos rfl, List.singleton_append,
      readEscape_short hmem]
    simp only [Option.bind_eq_bind, Option.bind_some]
    cases readChars fuel rest <;> rfl
  · rw [hesc, List.cons_append, readChars, if_neg (by decide), if_pos rfl]
    simp only [List.cons_append, List.nil_append]
    rw [readEscape_number]
    simp only [Option.bind_eq_bind, Option.bind_some]
    cases readChars fuel rest <;> rfl
  · rw [hesc, List.singleton_append, readChars, if_neg hquote, if_neg hslash,
      if_neg (Nat.not_lt_of_le hge)]
    simp only [Option.bind_eq_bind, Option.bind_some]
    cases readChars fuel rest <;> rfl

theorem escByte_length (b : UInt8) : 1 ≤ (escByte b).length := by
  rcases escByte_cases b with ⟨_, -, hesc⟩ | ⟨-, hesc⟩ | ⟨-, -, -, hesc⟩ <;> simp [hesc]

theorem readChars_flatMap {s : List UInt8} {fuel : Nat} (h : s.length < fuel) (rest : List UInt8) :
    readChars fuel (s.flatMap escByte ++ 0x22 :: rest) = some (s, rest) := by
  induction s generalizing fuel with
  | nil =>
    obtain ⟨fuel, rfl⟩ := Nat.exists_eq_add_of_lt h
    rfl
  | cons b s ih =>
    obtain ⟨fuel, rfl⟩ : ∃ k, fuel = k + 1 := ⟨fuel - 1, by omega⟩
    rw [List.flatMap_cons, List.append_assoc, readChars_escByte,
      ih (by rw [List.length_cons] at h; omega)]
    rfl

theorem readString_stringJson (s rest : List UInt8) :
    readString (stringJson s ++ rest) = some (s, rest) := by
  have hlen : s.length ≤ (s.flatMap escByte).length := by
    induction s with
    | nil => exact Nat.zero_le _
    | cons b s ih =>
      have hb := escByte_length b
      rw [List.flatMap_cons, List.length_append, List.length_cons]
      omega
  rw [stringJson, List.cons_append, readString, List.append_assoc, List.singleton_append]
  refine readChars_flatMap ?_ rest
  rw [List.length_append, List.length_cons]
  omega

theorem stringJson_ne_zero {s : List UInt8} {b : UInt8} (h : b ∈ stringJson s) : b ≠ 0 := by
  have hhex : ∀ d, d < 16 → hexDigit d ≠ 0 := by decide
  rw [stringJson, List.mem_cons, List.mem_append, List.mem_flatMap, List.mem_singleton] at h
  rcases h with rfl | ⟨c, -, hb⟩ | rfl
  · decide
  · have hc := c.toNat_lt
    rcases escByte_cases c with ⟨letter, hmem, hesc⟩ | ⟨-, hesc⟩ | ⟨hge, -, -, hesc⟩
    · have hletter : ∀ e ∈ shortEscapes, e.1 ≠ 0 := by simp [shortEscapes]
      rw [hesc, List.mem_cons, List.mem_singleton] at hb
      rcases hb with rfl | rfl
      · decide
      · exact hletter _ hmem
    · rw [hesc] at hb
      simp only [List.mem_cons, List.not_mem_nil, or_false] at hb
      rcases hb with rfl | rfl | rfl | rfl | rfl | rfl
      · decide
      · decide
      · decide
      · decide
      · exact hhex _ (by omega)
      · exact hhex _ (by omega)
    · rw [hesc, List.mem_singleton] at hb
      rintro rfl
      rw [← hb] at hge
      exact absurd hge (by decide)
  · decide

/-! ## Arrays -/

/-- The elements behind the first one. -/
def moreJson (w : α → List UInt8) (xs : List α) : List UInt8 :=
  xs.flatMap (fun x => 0x2c :: w x) ++ [0x5d]

def listJson (w : α → List UInt8) : List α → List UInt8
  | [] => [0x5b, 0x5d]
  | x :: xs => 0x5b :: (w x ++ moreJson w xs)

def readMore (p : Reader α) : Nat → Reader (List α)
  | 0, _ => none
  | _ + 1, [] => none
  | fuel + 1, b :: rest =>
    if b = 0x5d then some ([], rest)
    else if b = 0x2c then do
      let (x, rest) ← p rest
      let (xs, rest) ← readMore p fuel rest
      some (x :: xs, rest)
    else none

def readList (p : Reader α) : Reader (List α)
  | 0x5b :: 0x5d :: rest => some ([], rest)
  | 0x5b :: rest => do
    let (x, rest) ← p rest
    let (xs, rest) ← readMore p rest.length rest
    some (x :: xs, rest)
  | _ => none

section Lists

variable {valid : α → Prop} {p : Reader α} {w : α → List UInt8}

/-- What follows an element is no digit. -/
theorem moreJson_cons (xs : List α) (rest : List UInt8) :
    ∃ c tail, isDigit c = false ∧ moreJson w xs ++ rest = c :: tail := by
  cases xs with
  | nil => exact ⟨0x5d, rest, by decide, rfl⟩
  | cons x xs => exact ⟨0x2c, w x ++ moreJson w xs ++ rest, by decide, by simp [moreJson]⟩

theorem Reads.more (h : Reads valid p w) {xs : List α} (hxs : ∀ x ∈ xs, valid x) {fuel : Nat}
    (hfuel : xs.length < fuel) (rest : List UInt8) :
    readMore p fuel (moreJson w xs ++ rest) = some (xs, rest) := by
  induction xs generalizing fuel with
  | nil =>
    obtain ⟨fuel, rfl⟩ := Nat.exists_eq_add_of_lt hfuel
    rfl
  | cons x xs ih =>
    obtain ⟨fuel, rfl⟩ : ∃ k, fuel = k + 1 := ⟨fuel - 1, by omega⟩
    have hsplit : moreJson w (x :: xs) ++ rest = 0x2c :: (w x ++ (moreJson w xs ++ rest)) := by
      simp [moreJson]
    have hrest := @ih (fun y hy => hxs y (List.mem_cons_of_mem _ hy)) fuel
      (by rw [List.length_cons] at hfuel; omega)
    obtain ⟨c, tail, hc, htail⟩ := moreJson_cons (w := w) xs rest
    rw [htail] at hrest
    rw [hsplit, htail, readMore, if_neg (by decide), if_pos rfl,
      h x (hxs x List.mem_cons_self) c tail hc]
    simp [hrest]

theorem length_lt_moreJson (xs : List α) : xs.length < (moreJson w xs).length := by
  induction xs with
  | nil => exact Nat.zero_lt_one
  | cons x xs ih =>
    simp only [moreJson, List.flatMap_cons, List.length_append, List.length_cons] at ih ⊢
    omega

/-- Arrays are read back, if no element starts with a closing bracket. -/
theorem Reads.list (h : Reads valid p w) (hstart : ∀ x, (w x).head? ≠ some 0x5d ∧ w x ≠ []) :
    Reads (∀ x ∈ ·, valid x) (readList p) (listJson w) := by
  intro xs hxs c rest _
  cases xs with
  | nil => rfl
  | cons x xs =>
    have hsplit : listJson w (x :: xs) ++ c :: rest =
        0x5b :: (w x ++ (moreJson w xs ++ c :: rest)) := by
      simp [listJson]
    obtain ⟨b, tail, hw⟩ : ∃ b tail, w x = b :: tail := List.exists_cons_of_ne_nil (hstart x).2
    have hb : b ≠ 0x5d := by
      rintro rfl
      exact (hstart x).1 (by rw [hw]; rfl)
    have hread : readList p (0x5b :: (w x ++ (moreJson w xs ++ c :: rest))) = (do
        let (x, rest) ← p (w x ++ (moreJson w xs ++ c :: rest))
        let (xs, rest) ← readMore p rest.length rest
        some (x :: xs, rest)) := by
      rw [hw, List.cons_append, readList]
      exact fun _ heq => hb (List.cons.inj heq).1
    have hmore := h.more (fun y hy => hxs y (List.mem_cons_of_mem _ hy))
      (show xs.length < (moreJson w xs ++ c :: rest).length by
        have hlen := length_lt_moreJson (w := w) xs
        rw [List.length_append]
        omega) (c :: rest)
    obtain ⟨d, more, hd, heq⟩ := moreJson_cons (w := w) xs (c :: rest)
    rw [heq] at hmore hread hsplit
    rw [hsplit, hread, h x (hxs x List.mem_cons_self) d more hd]
    simp only [Option.bind_eq_bind, Option.bind_some, hmore]

theorem listJson_ne_zero (hw : ∀ x, ∀ b ∈ w x, b ≠ 0) {xs : List α} {b : UInt8}
    (h : b ∈ listJson w xs) : b ≠ 0 := by
  cases xs with
  | nil =>
    rw [listJson, List.mem_cons, List.mem_singleton] at h
    rcases h with rfl | rfl <;> decide
  | cons x xs =>
    simp only [listJson, moreJson, List.mem_cons, List.mem_append, List.mem_flatMap,
      List.not_mem_nil, or_false] at h
    rcases h with rfl | h | ⟨y, -, rfl | h⟩ | rfl
    · decide
    · exact hw x b h
    · decide
    · exact hw y b h
    · decide

/-! ## Members of objects -/

/-- A member of an object with the comma or the brace that follows it. -/
def memberJson (name : List UInt8) (sep : UInt8) (value : List UInt8) : List UInt8 :=
  0x22 :: (name ++ 0x22 :: 0x3a :: (value ++ [sep]))

def readMember (name : List UInt8) (sep : UInt8) (p : Reader α) : Reader α := fun bytes => do
  let bytes ← lit (0x22 :: (name ++ [0x22, 0x3a])) bytes
  let (a, bytes) ← p bytes
  let bytes ← lit [sep] bytes
  some (a, bytes)

theorem Reads.member (h : Reads valid p w) {a : α} (ha : valid a) (name : List UInt8) {sep : UInt8}
    (hsep : isDigit sep = false) (rest : List UInt8) :
    readMember name sep p (memberJson name sep (w a) ++ rest) = some (a, rest) := by
  have hsplit : memberJson name sep (w a) ++ rest =
      (0x22 :: (name ++ [0x22, 0x3a])) ++ (w a ++ sep :: rest) := by
    simp [memberJson]
  rw [hsplit, readMember, lit_append]
  simp only [Option.bind_eq_bind, Option.bind_some, h a ha sep rest hsep]
  exact congrArg (Option.bind · _) (lit_append [sep] rest)

theorem memberJson_ne_zero {name : List UInt8} {sep : UInt8} {value : List UInt8}
    (hname : ∀ b ∈ name, b ≠ 0) (hsep : sep ≠ 0) (hvalue : ∀ b ∈ value, b ≠ 0) :
    ∀ b ∈ memberJson name sep value, b ≠ 0 := by
  intro b h
  simp only [memberJson, List.mem_cons, List.mem_append, List.not_mem_nil, or_false] at h
  rcases h with rfl | h | rfl | rfl | h | rfl
  · decide
  · exact hname b h
  · decide
  · decide
  · exact hvalue b h
  · exact hsep

end Lists

end CompactJson
