import OxKv.Lucene.Parse

/-!
Words and field names as queries. A term ends where the letters of an operator begin, also inside
a word, and an operator needs no blanks around it.
-/

namespace OxKv.Lucene

open Peg Grammar

/-! ## Characters -/

def nameChar (x : Char) : Bool := x.isAlphanum || x == '_'

variable {x : Char}

theorem nameChar_ascii (h : nameChar x = true) : x.toNat < 128 := by
  rw [nameChar, Bool.or_eq_true, beq_iff_eq] at h
  obtain h | rfl := h
  · delta Char.isAlphanum Char.isAlpha Char.isUpper Char.isLower Char.isDigit at h
    simp only [Bool.or_eq_true, Bool.and_eq_true, decide_eq_true_eq, UInt32.le_iff_toNat_le,
      ge_iff_le] at h
    have hx : x.toNat = x.val.toNat := rfl
    have hZ : 'Z'.val.toNat = 90 := rfl
    have hz : 'z'.val.toNat = 122 := rfl
    have h9 : '9'.val.toNat = 57 := rfl
    omega
  · decide

theorem forall_nameChar {p : Char → Prop}
    (h : ∀ n < 128, nameChar (Char.ofNat n) = true → p (Char.ofNat n)) (x : Char)
    (hx : nameChar x = true) : p x :=
  forall_ascii (p := fun x => nameChar x = true → p x) h x (nameChar_ascii hx) hx

/-- What does not begin with the character of a name. -/
def foreign : List (Expr Rule) :=
  reservedMarks ++ [.rule .escapedChar, chr '*', chr '?', .rule .regexTerm, .rule .quotedTerm,
    .rule .rangeQuery, .rule .subQuery, .rule .modifier]

variable {k : Nat}

theorem foreign_fails (hx : nameChar x = true) {e : Expr Rule} (he : e ∈ foreign) {m : Mode}
    {r : Text} : Eval grammar m e ⟨k, x :: r⟩ none := by
  have hall : ∀ x, nameChar x = true → ∀ e ∈ foreign, look grammar 20 e (some x) = .fails :=
    forall_nameChar (by decide +kernel)
  exact .of_fails 20 rfl (hall x hx e he)

theorem noBlank_name (hx : nameChar x = true) (r : Text) : NoBlank (x :: r) := by
  have hall : ∀ x, nameChar x = true → NoBlank [x] :=
    forall_nameChar (by unfold NoBlank; decide +kernel)
  exact hall x hx

/-! ## Keywords -/

/-- An operator begins here. -/
def KeywordAt (v : Text) : Prop := kAnd <+: v ∨ kOr <+: v ∨ kNot <+: v

instance (v : Text) : Decidable (KeywordAt v) :=
  inferInstanceAs (Decidable (_ ∨ _ ∨ _))

/-- The letters of an operator stand somewhere in a word. -/
def HasKeyword (w : Text) : Prop := kAnd <:+: w ∨ kOr <:+: w ∨ kNot <:+: w

instance (w : Text) : Decidable (HasKeyword w) :=
  inferInstanceAs (Decidable (_ ∨ _ ∨ _))

/-- No operator begins inside of `u`, before `v`. -/
def Clear (u v : Text) : Prop := ∀ a x b, u = a ++ x :: b → ¬ KeywordAt (x :: (b ++ v))

/-- The end, or an operator. -/
def Stop (v : Text) : Prop := v = [] ∨ KeywordAt v

variable {v u : Text}

theorem KeywordAt.hasKeyword (h : KeywordAt v) : HasKeyword (u ++ v) := by
  have hsuffix : v <:+: u ++ v := (List.suffix_append u v).isInfix
  obtain h | h | h := h
  · exact .inl (h.isInfix.trans hsuffix)
  · exact .inr (.inl (h.isInfix.trans hsuffix))
  · exact .inr (.inr (h.isInfix.trans hsuffix))

theorem HasKeyword.at {w : Text} (h : HasKeyword w) : ∃ u v, w = u ++ v ∧ KeywordAt v := by
  obtain ⟨s, t, rfl⟩ | ⟨s, t, rfl⟩ | ⟨s, t, rfl⟩ := h
  · exact ⟨s, kAnd ++ t, List.append_assoc .., .inl (List.prefix_append ..)⟩
  · exact ⟨s, kOr ++ t, List.append_assoc .., .inr (.inl (List.prefix_append ..))⟩
  · exact ⟨s, kNot ++ t, List.append_assoc .., .inr (.inr (List.prefix_append ..))⟩

/-- Every word is cut before its first operator. -/
theorem exists_cut (w : Text) : ∃ u v, w = u ++ v ∧ Clear u v ∧ Stop v := by
  induction w with
  | nil => exact ⟨[], [], rfl, fun a x b h => by simp at h, .inl rfl⟩
  | cons x w ih =>
    by_cases hk : KeywordAt (x :: w)
    · exact ⟨[], x :: w, rfl, fun a y b h => by simp at h, .inr hk⟩
    · obtain ⟨u, v, rfl, hclear, hstop⟩ := ih
      refine ⟨x :: u, v, rfl, ?_, hstop⟩
      rintro (_ | ⟨y, a⟩) z b h
      · cases h
        exact hk
      · cases h
        exact hclear a z b rfl

theorem clear_nil_iff {w : Text} : Clear w [] ↔ ¬ HasKeyword w := by
  constructor
  · rintro hclear hkey
    obtain ⟨a, b, rfl, hb⟩ := hkey.at
    cases b with
    | nil => obtain ⟨t, ht⟩ | ⟨t, ht⟩ | ⟨t, ht⟩ := hb <;> cases ht
    | cons x b =>
      refine hclear a x b rfl ?_
      rwa [List.append_nil]
  · rintro h a x b rfl hk
    rw [List.append_nil] at hk
    exact h hk.hasKeyword

theorem KeywordAt.head (h : KeywordAt v) : ∃ x r, v = x :: r ∧ x ∈ ['A', 'O', 'N'] := by
  obtain ⟨t, rfl⟩ | ⟨t, rfl⟩ | ⟨t, rfl⟩ := h
  · exact ⟨'A', _, rfl, by decide⟩
  · exact ⟨'O', _, rfl, by decide⟩
  · exact ⟨'N', _, rfl, by decide⟩

theorem Stop.head (h : Stop v) : v.head? ∈ [none, some 'A', some 'O', some 'N'] := by
  obtain rfl | h := h
  · exact List.mem_cons_self
  · obtain ⟨x, r, rfl, hx⟩ := h.head
    exact List.mem_cons_of_mem none (List.mem_map_of_mem (f := some) hx)

theorem KeywordAt.exists_cons (h : KeywordAt v) : ∃ x r, v = x :: r ∧ nameChar x = true := by
  obtain ⟨x, r, rfl, hx⟩ := h.head
  have hall : ['A', 'O', 'N'].all nameChar = true := by decide
  exact ⟨x, r, rfl, List.all_eq_true.mp hall x hx⟩

/-! ## Terms -/

/-- One character of an unquoted term. -/
def unquotedChar : Expr Rule := choice [.rule .termChar, chr '*', chr '?']

theorem reserved_fails {m : Mode} {r : Text} (hx : nameChar x = true) (hk : ¬ KeywordAt (x :: r)) :
    Eval grammar m reserved ⟨k, x :: r⟩ none := by
  refine choice_fails fun e he => ?_
  obtain he | he := List.mem_append.mp he
  · exact foreign_fails hx (List.mem_append_left _ he)
  · have hno (s : List Char) (hs : s <+: x :: r → KeywordAt (x :: r)) :
        Eval grammar m (.str s) ⟨k, x :: r⟩ none := .str_fail fun h => hk (hs h)
    simp only [List.mem_cons, List.not_mem_nil, or_false] at he
    obtain rfl | rfl | rfl := he
    · exact hno kAnd .inl
    · exact hno kOr fun h => .inr (.inl h)
    · exact hno kNot fun h => .inr (.inr h)

theorem reserved_matches {m : Mode} (hk : KeywordAt v) :
    ∃ c, Eval grammar m reserved ⟨k, v⟩ (some (c, [])) := by
  obtain ⟨x, r, rfl, hx⟩ := hk.exists_cons
  have hmarks : ∀ e ∈ reservedMarks, Eval grammar m e ⟨k, x :: r⟩ none :=
    fun e he => foreign_fails hx (List.mem_append_left _ he)
  have hread (s : List Char) (hs : s <+: x :: r) :
      ∃ c, Eval grammar m (.str s) ⟨k, x :: r⟩ (some (c, [])) := by
    obtain ⟨t, ht⟩ := hs
    rw [← ht]
    exact ⟨_, .str s k t⟩
  -- the marks fail on a letter, and so does every operator before the one that stands here
  by_cases hand : kAnd <+: x :: r
  · obtain ⟨c, hc⟩ := hread kAnd hand
    exact ⟨c, choice_matches reservedMarks _ hmarks hc⟩
  have hfirst : ∀ e ∈ reservedMarks ++ [.str kAnd], Eval grammar m e ⟨k, x :: r⟩ none := by
    intro e he
    obtain he | he := List.mem_append.mp he
    · exact hmarks e he
    · rw [List.mem_singleton.mp he]
      exact .str_fail hand
  by_cases hor : kOr <+: x :: r
  · obtain ⟨c, hc⟩ := hread kOr hor
    exact ⟨c, choice_matches _ [.str kNot] hfirst hc⟩
  have hsecond : ∀ e ∈ (reservedMarks ++ [.str kAnd]) ++ [.str kOr],
      Eval grammar m e ⟨k, x :: r⟩ none := by
    intro e he
    obtain he | he := List.mem_append.mp he
    · exact hfirst e he
    · rw [List.mem_singleton.mp he]
      exact .str_fail hor
  obtain ⟨c, hc⟩ := hread kNot ((hk.resolve_left hand).resolve_left hor)
  exact ⟨c, choice_matches _ [] hsecond hc⟩

theorem unquotedChar_step {r : Text} (hx : nameChar x = true) (hk : ¬ KeywordAt (x :: r)) :
    Step grammar atom unquotedChar ⟨k, x :: r⟩ ⟨k + 1, r⟩ := by
  have hesc : Eval grammar atom (.rule .escapedChar) ⟨k, x :: r⟩ none :=
    foreign_fails hx (by simp [foreign])
  have hnot : Eval grammar atom (.not reserved) ⟨k, x :: r⟩ (some (⟨k, x :: r⟩, [])) :=
    .not_some (reserved_fails hx hk)
  have hany : Eval grammar atom .any ⟨k, x :: r⟩ (some (⟨k + 1, r⟩, [])) := .cls rfl k r
  exact .alt_left (.silent rfl (.alt_right hesc (.seq hnot (.skip_atomic atom_atomic) hany)))

theorem unquotedChar_stop (hv : Stop v) : Eval grammar atom unquotedChar ⟨k, v⟩ none := by
  obtain rfl | hk := hv
  · exact .of_fails 30 rfl rfl
  · obtain ⟨c, hres⟩ := reserved_matches (m := { atom with quiet := true }) (k := k) hk
    obtain ⟨x, r, rfl, hx⟩ := hk.exists_cons
    have hesc : Eval grammar atom (.rule .escapedChar) ⟨k, x :: r⟩ none :=
      foreign_fails hx (by simp [foreign])
    have hstar : Eval grammar atom (chr '*') ⟨k, x :: r⟩ none :=
      foreign_fails hx (by simp [foreign])
    have hmark : Eval grammar atom (chr '?') ⟨k, x :: r⟩ none :=
      foreign_fails hx (by simp [foreign])
    have hterm : Eval grammar atom (.rule .termChar) ⟨k, x :: r⟩ none :=
      .rule_fail (.alt_right hesc (.seq_left (.not_none hres)))
    exact .alt_right hterm (.alt_right hstar hmark)

def termNode (u : Text) : ParseTree Rule := .node .modifiedTerm u [.node .unquotedTerm u []]

section Read

variable {u v : Text} {k : Nat}

theorem unquotedTerm_read (hu : u ≠ []) (hname : ∀ x ∈ u, nameChar x = true) (hclear : Clear u v)
    (hv : Stop v) :
    Eval grammar inTerm (.rule .unquotedTerm) ⟨k, u ++ v⟩
      (some (⟨k + u.length, v⟩, [.node .unquotedTerm u []])) := by
  obtain ⟨x, u, rfl⟩ := List.exists_cons_of_ne_nil hu
  have hsteps : ∀ a y b, x :: u = a ++ y :: b → ∀ p,
      Step grammar atom unquotedChar ⟨p, y :: (b ++ v)⟩ ⟨p + 1, b ++ v⟩ := by
    intro a y b heq p
    refine unquotedChar_step (hname y ?_) (hclear a y b heq)
    rw [heq]
    exact List.mem_append_right a List.mem_cons_self
  have hrest : Relation.ReflTransGen (Step grammar atom unquotedChar) ⟨k + 1, u ++ v⟩
      ⟨k + 1 + u.length, v⟩ :=
    steps_of_text u v (k + 1) fun a y b heq =>
      hsteps (x :: a) y b (by rw [heq, List.cons_append]) _
  have hread := Eval.plus_of_steps atom_atomic (hsteps [] x u rfl k) hrest
    (unquotedChar_stop hv)
  rw [List.length_cons, Nat.add_comm u.length, ← Nat.add_assoc]
  exact .node rfl hread

theorem modifiedTerm_read (hu : u ≠ []) (hname : ∀ x ∈ u, nameChar x = true)
    (hclear : Clear u v) (hv : Stop v) :
    Eval grammar top (.rule .modifiedTerm) ⟨k, u ++ v⟩
      (some (⟨k + u.length, v⟩, [termNode u])) := by
  have hterm : Eval grammar inTerm (.rule .term) ⟨k, u ++ v⟩
      (some (⟨k + u.length, v⟩, [.node .unquotedTerm u []])) := by
    have hread := unquotedTerm_read (k := k) hu hname hclear hv
    obtain ⟨x, u, rfl⟩ := List.exists_cons_of_ne_nil hu
    have hx := hname x List.mem_cons_self
    exact .silent rfl (.alt_right (foreign_fails hx (by simp [foreign]))
      (.alt_right (foreign_fails hx (by simp [foreign])) hread))
  have hidle : ∀ o ∈ [none, some 'A', some 'O', some 'N'],
      look grammar 20 (.seq (.opt (.rule .fuzzySlop)) (.opt (.rule .boost))) o = .idle := by
    decide
  exact .node rfl (.seq hterm (.skip_atomic inTerm_atomic) (.of_idle 20 rfl (hidle _ hv.head)))

theorem modifiedTerm_fails (hv : KeywordAt v) :
    Eval grammar top (.rule .modifiedTerm) ⟨k, v⟩ none := by
  have hstop : Eval grammar atom unquotedChar ⟨k, v⟩ none := unquotedChar_stop (.inr hv)
  obtain ⟨x, r, rfl, hx⟩ := hv.exists_cons
  exact .rule_fail (.seq_left (.rule_fail (.alt_right (foreign_fails hx (by simp [foreign]))
    (.alt_right (foreign_fails hx (by simp [foreign])) (.rule_fail (.seq_left hstop))))))

end Read

/-! ## Field names -/

def headChar (x : Char) : Bool := x.isAlpha || x == '_'

/-- One or more letters and digits. -/
def IsWord (w : Text) : Prop := w ≠ [] ∧ ∀ x ∈ w, x.isAlphanum = true

/-- Letters, digits and underscores, with no digit in front. -/
def IsIdentifier (f : Text) : Prop :=
  f.head?.any headChar = true ∧ ∀ x ∈ f, nameChar x = true

instance (w : Text) : Decidable (IsWord w) :=
  decidable_of_iff (w ≠ [] ∧ w.all Char.isAlphanum = true)
    (and_congr_right fun _ => List.all_eq_true)

instance (f : Text) : Decidable (IsIdentifier f) :=
  decidable_of_iff (f.head?.any headChar = true ∧ f.all nameChar = true)
    (and_congr_right fun _ => List.all_eq_true)

theorem IsWord.names {w : Text} (h : IsWord w) : ∀ x ∈ w, nameChar x = true := by
  intro x hx
  rw [nameChar, h.2 x hx, Bool.true_or]

theorem IsIdentifier.exists_cons {f : Text} (h : IsIdentifier f) :
    ∃ x r, f = x :: r ∧ headChar x = true := by
  cases f with
  | nil => exact absurd h.1 Bool.false_ne_true
  | cons x r => exact ⟨x, r, rfl, h.1⟩

section Field

variable {f r : Text} {k : Nat}

theorem fieldName_read (hf : IsIdentifier f) (hr : r.head? ∈ [none, some ':']) :
    Eval grammar top (.rule .fieldName) ⟨k, f ++ r⟩
      (some (⟨k + f.length, r⟩, [.node .fieldName f []])) := by
  obtain ⟨x, f, rfl, hx⟩ := hf.exists_cons
  have hfirst : Eval grammar atom (choice [asciiAlpha, chr '_', .rule .escapedChar])
      ⟨k, x :: (f ++ r)⟩ (some (⟨k + 1, f ++ r⟩, [])) := by
    by_cases ha : x.isAlpha = true
    · exact .alt_left (.cls ha k (f ++ r))
    · rw [headChar, Bool.or_eq_true, beq_iff_eq] at hx
      rw [hx.resolve_left ha]
      exact .alt_right (.cls_fail Bool.false_ne_true) (.alt_left (.str ['_'] k (f ++ r)))
  have hsteps : Relation.ReflTransGen (Step grammar atom
      (choice [asciiAlphanumeric, chr '_', chr '.', .rule .escapedChar]))
      ⟨k + 1, f ++ r⟩ ⟨k + 1 + f.length, r⟩ := by
    refine steps_of_text f r (k + 1) ?_
    rintro a y b rfl
    have hy := hf.2 y (List.mem_cons_of_mem x (List.mem_append_right a List.mem_cons_self))
    by_cases ha : y.isAlphanum = true
    · exact .alt_left (.cls ha _ _)
    · rw [nameChar, Bool.or_eq_true, beq_iff_eq] at hy
      rw [hy.resolve_left ha]
      exact .alt_right (.cls_fail Bool.false_ne_true) (.alt_left (.str ['_'] _ _))
  have hstop : Eval grammar atom
      (choice [asciiAlphanumeric, chr '_', chr '.', .rule .escapedChar])
      ⟨k + 1 + f.length, r⟩ none := by
    have hall : ∀ o ∈ [none, some ':'], look grammar 9
        (choice [asciiAlphanumeric, chr '_', chr '.', .rule .escapedChar]) o = .fails := by
      decide
    exact .of_fails 9 rfl (hall _ hr)
  rw [List.length_cons, Nat.add_comm f.length, ← Nat.add_assoc]
  exact .node rfl (.seq hfirst (.skip_atomic atom_atomic)
    (.star_of_steps atom_atomic hsteps hstop))

theorem noBlank_colon (r : Text) : NoBlank (':' :: r) := rfl

/-- A word is a field name without the colon, or no field name. -/
theorem fieldQuery_fails_word {w : Text} (hw : IsWord w) :
    Eval grammar top (.rule .fieldQuery) ⟨k, w⟩ none := by
  obtain ⟨x, r, rfl⟩ := List.exists_cons_of_ne_nil hw.1
  have hx := hw.names x List.mem_cons_self
  by_cases hh : headChar x = true
  · have hname : Eval grammar top (.rule .fieldName) ⟨k, x :: r ++ []⟩
        (some (⟨k + (x :: r).length, []⟩, [.node .fieldName (x :: r) []])) :=
      fieldName_read ⟨hh, hw.names⟩ (by decide)
    rw [List.append_nil] at hname
    exact .rule_fail (.seq hname (skip_at_end _) (.seq_left (.of_fails 9 rfl rfl)))
  · have hall : ∀ x, nameChar x = true → ¬ headChar x = true →
        look grammar 20 (.rule .fieldQuery) (some x) = .fails :=
      forall_nameChar (by decide +kernel)
    exact .of_fails 20 rfl (hall x hx hh)

variable {u v : Text}

theorem skip_name {x : Char} (hx : nameChar x = true) :
    Eval grammar top .skip ⟨k, x :: r⟩ (some (⟨k, x :: r⟩, [])) :=
  (noBlank_name hx r).skip

/-- Behind a colon, what begins as a name can only be a term. -/
theorem fieldValue_of_term {x : Char} (hx : nameChar x = true) {out : Outcome Rule}
    (h : Eval grammar top (.rule .modifiedTerm) ⟨k, x :: r⟩ out) :
    Eval grammar top (choice [.rule .rangeQuery, .rule .subQuery, .rule .modifiedTerm])
      ⟨k, x :: r⟩ out :=
  .alt_right (foreign_fails hx (by simp [foreign]))
    (.alt_right (foreign_fails hx (by simp [foreign])) h)

theorem fieldQuery_read (hf : IsIdentifier f) (hu : u ≠ []) (hname : ∀ x ∈ u, nameChar x = true)
    (hclear : Clear u v) (hv : Stop v) :
    Eval grammar top (.rule .fieldQuery) ⟨k, f ++ ':' :: (u ++ v)⟩
      (some (⟨k + f.length + 1 + u.length, v⟩,
        [.node .fieldQuery (f ++ ':' :: u) [.node .fieldName f [], termNode u]])) := by
  have hfield := fieldName_read (k := k) (r := ':' :: (u ++ v)) hf
    (List.mem_cons_of_mem _ List.mem_cons_self)
  have hcolon : Eval grammar top (chr ':') ⟨k + f.length, ':' :: (u ++ v)⟩
      (some (⟨k + f.length + 1, u ++ v⟩, [])) := .str [':'] _ _
  have hterm := modifiedTerm_read (k := k + f.length + 1) hu hname hclear hv
  obtain ⟨x, u, rfl⟩ := List.exists_cons_of_ne_nil hu
  have hx := hname x List.mem_cons_self
  have hbody := Eval.seq hfield (noBlank_colon _).skip
    (.seq hcolon (skip_name hx) (fieldValue_of_term hx hterm))
  have hassoc : f ++ ':' :: (x :: u ++ v) = (f ++ ':' :: (x :: u)) ++ v := by
    rw [List.append_assoc, List.cons_append, List.cons_append, List.cons_append]
  rw [hassoc] at hbody ⊢
  exact .node rfl hbody

theorem fieldQuery_fails (hf : IsIdentifier f) (hv : KeywordAt v) :
    Eval grammar top (.rule .fieldQuery) ⟨k, f ++ ':' :: v⟩ none := by
  have hfield := fieldName_read (k := k) (r := ':' :: v) hf
    (List.mem_cons_of_mem _ List.mem_cons_self)
  have hcolon : Eval grammar top (chr ':') ⟨k + f.length, ':' :: v⟩
      (some (⟨k + f.length + 1, v⟩, [])) := .str [':'] _ _
  have hterm := modifiedTerm_fails (k := k + f.length + 1) hv
  obtain ⟨x, r, rfl, hx⟩ := hv.exists_cons
  exact .rule_fail (.seq hfield (noBlank_colon _).skip
    (.seq hcolon (skip_name hx) (fieldValue_of_term hx hterm)))

end Field

/-! ## Single queries -/

/-- The alternatives of a single query. -/
def singleChoice : Expr Rule :=
  choice [.rule .fieldQuery, .rule .rangeQuery, .rule .modifiedTerm, .rule .subQuery]

section Single

variable {x : Char} {r : Text} {k : Nat} {ts : List (ParseTree Rule)} {c : Cursor} {e : Expression}

variable (hx : nameChar x = true)

include hx

/-- What begins as a name has no modifier. -/
theorem singleQuery_of_choice {out : Outcome Rule}
    (h : Eval grammar top singleChoice ⟨k, x :: r⟩ out) :
    Eval grammar top (body .singleQuery) ⟨k, x :: r⟩ out := by
  have hmod : Eval grammar top (.opt (.rule .modifier)) ⟨k, x :: r⟩ (some (⟨k, x :: r⟩, [])) :=
    .opt_none (foreign_fails hx (by simp [foreign]))
  have hseq := Eval.seq hmod (skip_name hx) h
  cases out <;> exact hseq

theorem notOp_fails (h : ¬ kNot <+: x :: r) : Eval grammar top (.rule .notOp) ⟨k, x :: r⟩ none :=
  .rule_fail (.alt_right (.str_fail h) (foreign_fails hx (by simp [foreign, reservedMarks])))

/-- A single query that begins as a name and is no field query is a term. -/
theorem singleQuery_term (hfield : Eval grammar top (.rule .fieldQuery) ⟨k, x :: r⟩ none)
    (h : Eval grammar top (body .singleQuery) ⟨k, x :: r⟩ (some (c, ts))) :
    ∃ text us, ts = [.node .modifiedTerm text us] := by
  have hrange : Eval grammar top (.rule .rangeQuery) ⟨k, x :: r⟩ none :=
    foreign_fails hx (by simp [foreign])
  have hsub : Eval grammar top (.rule .subQuery) ⟨k, x :: r⟩ none :=
    foreign_fails hx (by simp [foreign])
  obtain ⟨c1, t1, c2, t2, t, hmod, hskip, hchoice, rfl⟩ := h.seq_inv
  cases hmod.unique (.opt_none (foreign_fails hx (by simp [foreign])))
  cases hskip.unique (skip_name hx)
  obtain h | ⟨-, hchoice⟩ := hchoice.alt_inv
  · cases h.unique hfield
  obtain h | ⟨-, hchoice⟩ := hchoice.alt_inv
  · cases h.unique hrange
  obtain h | ⟨-, h⟩ := hchoice.alt_inv
  · obtain ⟨y, -, hy⟩ := h.rule_inv
    cases hy
    exact ⟨_, _, rfl⟩
  · cases h.unique hsub

/-- What begins as a name, but not with the letters of a negation, is a single query. -/
theorem queryItem_of_single (h : ¬ kNot <+: x :: r) {out : Outcome Rule}
    (hs : Eval grammar top (.rule .singleQuery) ⟨k, x :: r⟩ out) :
    Eval grammar top (.rule .queryItem) ⟨k, x :: r⟩ out := by
  have hseq := Eval.rule (r := Rule.queryItem)
    (.seq (.opt_none (notOp_fails hx h)) (skip_name hx) hs)
  cases out <;> exact hseq

/-- An input that begins with the letters of a negation is never a query of one plain item. -/
theorem not_single_of_not (h : kNot <+: x :: r) : ¬ Parses (x :: r) (.ok (.single e)) := by
  intro hp
  obtain ⟨c, t1, t2, hitem, hitems⟩ := hp.begins (noBlank_name hx r)
  obtain ⟨rest, hrest⟩ := h
  have hnot : Eval grammar top (.opt (.rule .notOp)) (.start (x :: r))
      (some (⟨kNot.length, rest⟩, [.node .notOp kNot []])) := by
    rw [Cursor.start, ← hrest]
    have hstr := Eval.str (G := grammar) (m := top) kNot 0 rest
    exact .opt_some (.node rfl (.alt_left hstr))
  obtain ⟨⟨c', t'⟩, hbody, hwrap⟩ := hitem.rule_inv
  cases hwrap
  obtain ⟨c1, s1, c2, s2, s3, hopt, -, -, rfl⟩ := hbody.seq_inv
  cases hopt.unique hnot
  have hwait : queryItems (s3 ++ t2) (some .not) [] = .ok [⟨none, e, none⟩] := hitems
  obtain hnil | ⟨item, items, heq, hpfx⟩ := queryItems_waiting _ _ hwait
  · cases hnil
  · cases heq
    cases hpfx

/-- The other way round: the item of a query of one plain item comes from the single query in
front. -/
theorem Parses.single (h : ¬ kNot <+: x :: r) (hp : Parses (x :: r) (.ok (.single e))) :
    ∃ c ts text, Eval grammar top (body .singleQuery) (.start (x :: r)) (some (c, ts)) ∧
      parseSingleQuery (.node .singleQuery text ts) = .ok (none, e) := by
  obtain ⟨c, t1, t2, hitem, hitems⟩ := hp.begins (noBlank_name hx r)
  obtain ⟨⟨c', t'⟩, hbody, hwrap⟩ := hitem.rule_inv
  cases hwrap
  obtain ⟨c1, s1, c2, s2, s3, hopt, hskip, hsingle, rfl⟩ := hbody.seq_inv
  cases hopt.unique (.opt_none (notOp_fails hx h))
  cases hskip.unique (skip_name hx)
  obtain ⟨⟨d, ts⟩, hts, hwrap⟩ := hsingle.rule_inv
  cases hwrap
  exact ⟨d, ts, _, hts, queryItems_single hitems⟩

end Single

/-! ## Words -/

theorem unescape_of_name (h : ∀ x ∈ u, nameChar x = true) : unescape u = u :=
  unescape_of_notMem fun hmem => absurd (h _ hmem) (by decide)

theorem parseSingleQuery_term (h : ∀ x ∈ u, nameChar x = true) (text : Text) :
    parseSingleQuery (.node .singleQuery text [termNode u]) = .ok (none, .term (.plain u)) := by
  have hterm : parseSingleQuery (.node .singleQuery text [termNode u]) =
    .ok (none, .term (.plain (unescape u))) := rfl
  rw [hterm, unescape_of_name h]

theorem parseSingleQuery_field (h : ∀ x ∈ u, nameChar x = true) (f text text' : Text) :
    parseSingleQuery (.node .singleQuery text
        [.node .fieldQuery text' [.node .fieldName f [], termNode u]]) =
      .ok (none, .field f (.term (.plain u))) := by
  have hterm : parseSingleQuery (.node .singleQuery text
      [.node .fieldQuery text' [.node .fieldName f [], termNode u]]) =
    .ok (none, .field f (.term (.plain (unescape u)))) := rfl
  rw [hterm, unescape_of_name h]

section Word

variable {w u v f : Text} {k : Nat}

theorem word_single (hw : IsWord (u ++ v)) (hclear : Clear u v) (hv : Stop v) :
    Eval grammar top (body .singleQuery) ⟨k, u ++ v⟩
      (if u = [] then none else some (⟨k + u.length, v⟩, [termNode u])) := by
  have hfield := fieldQuery_fails_word (k := k) hw
  have hname := hw.names
  obtain ⟨x, r, hxr⟩ := List.exists_cons_of_ne_nil hw.1
  have hx : nameChar x = true := hname x (by rw [hxr]; exact List.mem_cons_self)
  split
  · rename_i hu
    subst hu
    have hterm := modifiedTerm_fails (k := k) (hv.resolve_left fun h => hw.1 (by rw [h]; rfl))
    subst hxr
    have hsub : Eval grammar top (.rule .subQuery) ⟨k, x :: r⟩ none :=
      foreign_fails hx (by simp [foreign])
    exact singleQuery_of_choice hx (.alt_right hfield (.alt_right
      (foreign_fails hx (by simp [foreign])) (.alt_right hterm hsub)))
  · rename_i hu
    have hterm := modifiedTerm_read (k := k) hu
      (fun y hy => hname y (List.mem_append_left v hy)) hclear hv
    rw [hxr] at hfield hterm ⊢
    exact singleQuery_of_choice hx (.alt_right hfield (.alt_right
      (foreign_fails hx (by simp [foreign])) (.alt_left hterm)))

theorem IsWord.exists_cons (hw : IsWord w) : ∃ x r, w = x :: r ∧ nameChar x = true := by
  obtain ⟨x, r, rfl⟩ := List.exists_cons_of_ne_nil hw.1
  exact ⟨x, r, rfl, hw.names x List.mem_cons_self⟩

/-- A word is its own term unless the letters of an operator stand in it. -/
theorem word_iff (hw : IsWord w) :
    Parses w (.ok (.single (.term (.plain w)))) ↔ ¬ HasKeyword w := by
  obtain ⟨x, r, rfl, hx⟩ := hw.exists_cons
  constructor
  · intro hp hkey
    have hnot : ¬ kNot <+: x :: r := fun h => not_single_of_not hx h hp
    obtain ⟨c, ts, text, hbody, hparse⟩ := hp.single hx hnot
    obtain ⟨u, v, huv, hclear, hv⟩ := exists_cut (x :: r)
    rw [huv] at hw hbody
    have hread := hbody.unique (word_single hw hclear hv)
    by_cases hu : u = []
    · rw [if_pos hu] at hread
      cases hread
    · rw [if_neg hu] at hread
      cases hread
      have hname : ∀ y ∈ u, nameChar y = true := fun y hy =>
        hw.names y (List.mem_append_left v hy)
      rw [parseSingleQuery_term hname] at hparse
      cases hparse
      have hnil : v = [] := List.self_eq_append_right.mp huv
      subst hnil
      exact clear_nil_iff.mp hclear hkey
  · intro hkey
    have hnot : ¬ kNot <+: x :: r := fun h => hkey (.inr (.inr h.isInfix))
    have hsingle := word_single (k := 0) (v := []) (by rwa [List.append_nil])
      (clear_nil_iff.mpr hkey) (.inl rfl)
    rw [if_neg (List.cons_ne_nil x r), List.append_nil] at hsingle
    have hnode := Eval.node_end (r := Rule.singleQuery) rfl hsingle
    refine parses_of_item (noBlank_name hx r) (queryItem_of_single hx hnot hnode) ?_
    rw [queryItems_of_single (parseSingleQuery_term hw.names _)]

theorem fieldWord_single (hf : IsIdentifier f) (hw : IsWord (u ++ v)) (hclear : Clear u v)
    (hv : Stop v) (hu : u ≠ []) :
    Eval grammar top (body .singleQuery) ⟨k, f ++ ':' :: (u ++ v)⟩
      (some (⟨k + f.length + 1 + u.length, v⟩,
        [.node .fieldQuery (f ++ ':' :: u) [.node .fieldName f [], termNode u]])) := by
  have hname : ∀ y ∈ u, nameChar y = true := fun y hy =>
    hw.names y (List.mem_append_left v hy)
  have hfield := fieldQuery_read (k := k) hf hu hname hclear hv
  obtain ⟨x, r, rfl, -⟩ := hf.exists_cons
  exact singleQuery_of_choice (hf.2 x List.mem_cons_self) (.alt_left hfield)

/-- A negation in front of a field query is one in front of the name. -/
theorem not_prefix_field (hf : IsIdentifier f) : kNot <+: f ++ ':' :: w ↔ kNot <+: f := by
  constructor
  · intro h
    obtain ⟨x, r, rfl, -⟩ := hf.exists_cons
    obtain _ | ⟨y, _ | ⟨z, r⟩⟩ := r
    · simp [kNot] at h
    · simp [kNot] at h
    · simpa [kNot] using h
  · rintro ⟨t, rfl⟩
    rw [List.append_assoc]
    exact List.prefix_append _ _

/-- A word behind an identifier and a colon is the term of a field query unless the letters of an
operator stand in the word or those of a negation in front of the identifier. -/
theorem fieldWord_iff (hf : IsIdentifier f) (hw : IsWord w) :
    Parses (f ++ ':' :: w) (.ok (.single (.field f (.term (.plain w))))) ↔
      ¬ HasKeyword w ∧ ¬ kNot <+: f := by
  rw [← not_prefix_field (w := w) hf]
  have hcons : ∃ x r, f ++ ':' :: w = x :: r ∧ nameChar x = true := by
    obtain ⟨x, r, rfl, -⟩ := hf.exists_cons
    exact ⟨x, r ++ ':' :: w, rfl, hf.2 x List.mem_cons_self⟩
  obtain ⟨x, r, hxr, hx⟩ := hcons
  constructor
  · intro hp
    have hnot : ¬ kNot <+: f ++ ':' :: w := by
      intro h
      rw [hxr] at h hp
      exact not_single_of_not hx h hp
    refine ⟨fun hkey => ?_, hnot⟩
    rw [hxr] at hp hnot
    obtain ⟨c, ts, text, hbody, hparse⟩ := hp.single hx hnot
    obtain ⟨u, v, rfl, hclear, hv⟩ := exists_cut w
    by_cases hu : u = []
    · subst hu
      have hk := hv.resolve_left fun h => hw.1 (by rw [h]; rfl)
      have hfail := fieldQuery_fails (k := 0) hf hk
      rw [← List.nil_append v, hxr] at hfail
      obtain ⟨text', us, rfl⟩ := singleQuery_term hx hfail hbody
      cases hparse
    · rw [← hxr] at hbody
      cases hbody.unique (fieldWord_single hf hw hclear hv hu)
      have hname : ∀ y ∈ u, nameChar y = true := fun y hy =>
        hw.names y (List.mem_append_left v hy)
      rw [parseSingleQuery_field hname] at hparse
      have hnil : v = [] := by simpa [TermExpr.plain] using hparse
      subst hnil
      rw [List.append_nil] at hkey
      exact clear_nil_iff.mp hclear hkey
  · rintro ⟨hkey, hnot⟩
    have hsingle := fieldWord_single (k := 0) (v := []) hf (by rwa [List.append_nil])
      (clear_nil_iff.mpr hkey) (.inl rfl) hw.1
    rw [List.append_nil, hxr] at hsingle
    have hnode := Eval.node_end (r := Rule.singleQuery) rfl hsingle
    rw [hxr] at hnot ⊢
    refine parses_of_item (noBlank_name hx r) (queryItem_of_single hx hnot hnode) ?_
    rw [queryItems_of_single (parseSingleQuery_field hw.names _ _ _)]

/-- Which words, alone and behind an identifier, are parsed as themselves. -/
theorem operator_letters_iff (w f : Text) (hw : IsWord w) (hf : IsIdentifier f) :
    (Parses w (.ok (.single (.term (.plain w)))) ↔ ¬ HasKeyword w) ∧
    (Parses (f ++ ':' :: w) (.ok (.single (.field f (.term (.plain w))))) ↔
      ¬ HasKeyword w ∧ ¬ kNot <+: f) :=
  ⟨word_iff hw, fieldWord_iff hf hw⟩

theorem operator_letters_iff_rust :
    Parses ['r', 'u', 's', 't'] (.ok (.single (.term (.plain ['r', 'u', 's', 't'])))) ∧
    Parses ['t', 'a', 'g', ':', 'r', 'u', 's', 't']
      (.ok (.single (.field ['t', 'a', 'g'] (.term (.plain ['r', 'u', 's', 't']))))) := by
  obtain ⟨hword, hfield⟩ := operator_letters_iff ['r', 'u', 's', 't'] ['t', 'a', 'g']
    (by decide) (by decide)
  exact ⟨hword.mpr (by decide), hfield.mpr (by decide)⟩

/-- `FOR` is cut after its first letter and ends with an operator that has nothing behind it. -/
theorem word_for_refused :
    IsWord ['F', 'O', 'R'] ∧ ['F', 'O', 'R'] ∉ [kAnd, kOr, kNot] ∧
    Parses ['F', 'O', 'R'] (.error .syntaxError) ∧
    ¬ Parses ['F', 'O', 'R'] (.ok (.single (.term (.plain ['F', 'O', 'R'])))) := by
  have hparse : Parses ['F', 'O', 'R'] (.error .syntaxError) := ⟨60, rfl⟩
  refine ⟨by decide, by decide, hparse, fun h => ?_⟩
  cases hparse.unique h

end Word

end OxKv.Lucene
