import OxKv.Lucene.Parse

/-!
Regex terms. The grammar takes a backslash in front of a slash out of the way of the closing slash
and leaves every other backslash to the pattern. The builder of the syntax tree then removes
escapes from the pattern as it does in words and phrases, so that a pattern loses backslashes which
the grammar left to it.
-/

namespace OxKv.Lucene

open Peg Grammar

/-! ## Patterns -/

/-- Each slash stands directly behind a backslash. -/
def slashesEscaped : Text → Bool
  | [] => true
  | '\\' :: '/' :: rest => slashesEscaped rest
  | c :: rest => c != '/' && slashesEscaped rest

/-- The pattern with its escaped slashes, and nothing else, replaced by slashes. -/
def slashOnly : Text → Text
  | [] => []
  | '\\' :: '/' :: rest => '/' :: slashOnly rest
  | c :: rest => c :: slashOnly rest

/-- Each backslash belongs to a run of one or two in front of a slash. -/
def kept : Text → Bool
  | [] => true
  | '\\' :: '/' :: rest => kept rest
  | '\\' :: '\\' :: '/' :: rest => kept rest
  | c :: rest => c != '\\' && kept rest

variable {p : Text} {c : Char}

theorem slashOnly_cons (h : c = '\\' → p.head? ≠ some '/') :
    slashOnly (c :: p) = c :: slashOnly p := by
  rw [slashOnly]
  rintro q rfl rfl
  exact h rfl rfl

theorem slashOnly_cons_le (c : Char) (p : Text) :
    (slashOnly p).length ≤ (slashOnly (c :: p)).length := by
  by_cases h : c = '\\' → p.head? ≠ some '/'
  · rw [slashOnly_cons h, List.length_cons]
    exact Nat.le_succ _
  · obtain ⟨rfl, hp⟩ := Classical.not_imp.mp h
    obtain ⟨q, rfl⟩ := List.head?_eq_some_iff.mp (not_not.mp hp)
    have heq : slashOnly ('\\' :: '/' :: q) = slashOnly ('/' :: q) := by
      rw [slashOnly, slashOnly_cons (by simp)]
    exact Nat.le_of_eq (congrArg List.length heq).symm

/-- A pattern without slashes stays as it is. -/
theorem slashOnly_of_notMem (h : '/' ∉ p) : slashOnly p = p := by
  induction p with
  | nil => rfl
  | cons c p ih =>
    have hp : '/' ∉ p := fun hmem => h (List.mem_cons_of_mem c hmem)
    rw [slashOnly_cons fun _ hhead => hp (List.mem_of_mem_head? hhead), ih hp]

theorem slashesEscaped_of_notMem (h : '/' ∉ p) : slashesEscaped p = true := by
  induction p with
  | nil => rfl
  | cons c p ih =>
    have hp : '/' ∉ p := fun hmem => h (List.mem_cons_of_mem c hmem)
    have hc : c ≠ '/' := fun hc => h (hc ▸ List.mem_cons_self)
    rw [slashesEscaped, ih hp, Bool.and_true, bne_iff_ne]
    · exact hc
    · rintro q rfl rfl
      exact hp List.mem_cons_self

/-- The removal of escapes takes away at least the backslashes in front of slashes. -/
theorem unescape_length_le (p : Text) : (unescape p).length ≤ (slashOnly p).length := by
  induction p using unescape.induct with
  | case1 | case2 => exact Nat.le_refl _
  | case3 d rest ih =>
    rw [unescape, List.length_cons]
    by_cases hd : d = '/'
    · subst hd
      rw [slashOnly, List.length_cons]
      exact Nat.succ_le_succ ih
    · rw [slashOnly_cons (by simpa using hd), List.length_cons]
      exact Nat.succ_le_succ (Nat.le_trans ih (slashOnly_cons_le d rest))
  | case4 c rest hnil hcons ih =>
    have hc : c ≠ '\\' := by
      rintro rfl
      cases rest with
      | nil => exact hnil rfl rfl
      | cons d rest => exact hcons d rest rfl rfl
    rw [unescape_cons hc, slashOnly_cons fun h => absurd h hc]
    exact Nat.succ_le_succ ih

/-- A text does not end in a backslash. -/
def Closed (p : Text) : Prop := p.getLast? ≠ some '\\'

theorem Closed.tail (h : Closed (c :: p)) : Closed p := by
  intro hp
  refine h ?_
  cases p with
  | nil => cases hp
  | cons d p => rwa [List.getLast?_cons_cons]

theorem Closed.cons (h : Closed p) (hc : p = [] → c ≠ '\\') : Closed (c :: p) := by
  cases p with
  | nil => exact fun hlast => hc rfl (Option.some.inj hlast)
  | cons d p =>
    intro hlast
    exact h hlast

theorem kept_cons (h : c ≠ '\\') : kept (c :: p) = kept p := by
  rw [kept, bne_iff_ne.mpr h, Bool.true_and]
  · exact fun _ hc => absurd hc h
  · exact fun _ hc => absurd hc h

theorem kept_closed (h : kept p = true) : Closed p := by
  induction p using kept.induct with
  | case1 => exact nofun
  | case2 rest ih =>
    exact ((ih h).cons fun _ => by decide).cons nofun
  | case3 rest ih =>
    exact (((ih h).cons fun _ => by decide).cons nofun).cons nofun
  | case4 c rest h1 h2 ih =>
    rw [kept.eq_4 c rest h1 h2, Bool.and_eq_true, bne_iff_ne] at h
    exact (ih h.2).cons fun _ => h.1

/-- A backslash that is in front of neither a slash nor an escaped slash is lost. -/
theorem unescape_ne_slashOnly (hp : Closed ('\\' :: p)) (h1 : p.head? ≠ some '/')
    (h2 : ¬ ['\\', '/'] <+: p) : unescape ('\\' :: p) ≠ slashOnly ('\\' :: p) := by
  intro heq
  obtain _ | ⟨d, q⟩ := p
  · exact hp rfl
  rw [unescape, slashOnly_cons fun _ => h1] at heq
  obtain ⟨rfl, hq⟩ := List.cons.inj heq
  have hhead : q.head? ≠ some '/' := by
    intro hhead
    obtain ⟨q, rfl⟩ := List.head?_eq_some_iff.mp hhead
    exact h2 ⟨q, rfl⟩
  rw [slashOnly_cons fun _ => hhead] at hq
  have hlen := unescape_length_le q
  rw [hq, List.length_cons] at hlen
  omega

/-- The removal of escapes replaces nothing but escaped slashes exactly in the patterns of
`kept`. -/
theorem unescape_eq_slashOnly_iff (hp : Closed p) : unescape p = slashOnly p ↔ kept p = true := by
  induction p using kept.induct with
  | case1 => exact iff_of_true rfl rfl
  | case2 rest ih =>
    rw [unescape, slashOnly, kept, List.cons.injEq, ← ih hp.tail.tail]
    exact and_iff_right rfl
  | case3 rest ih =>
    rw [unescape, unescape_cons (by decide), slashOnly_cons (by simp), slashOnly, kept,
      ← ih hp.tail.tail.tail, List.cons.injEq, List.cons.injEq]
    exact ⟨fun h => h.2.2, fun h => ⟨rfl, rfl, h⟩⟩
  | case4 c rest h1 h2 ih =>
    by_cases hc : c = '\\'
    · subst hc
      have hne : unescape ('\\' :: rest) ≠ slashOnly ('\\' :: rest) := by
        refine unescape_ne_slashOnly hp (fun hhead => ?_) fun hpair => ?_
        · obtain ⟨q, rfl⟩ := List.head?_eq_some_iff.mp hhead
          exact h1 q rfl rfl
        · obtain ⟨q, hq⟩ := hpair
          exact h2 q rfl hq.symm
      rw [kept.eq_4 _ rest h1 h2]
      exact iff_of_false hne Bool.false_ne_true
    · rw [unescape_cons hc, slashOnly_cons fun h => absurd h hc, kept_cons hc, List.cons.injEq,
        ← ih hp.tail]
      exact and_iff_right rfl

/-! ## The grammar on a regex -/

/-- One round of `regex_content`. -/
def regexUnit : Expr Rule := .alt (.str ['\\', '/']) (.seq (.not (chr '/')) .any)

theorem regexUnit_pair (k : Nat) (r : Text) :
    Step grammar atom regexUnit ⟨k, '\\' :: '/' :: r⟩ ⟨k + 2, r⟩ :=
  .alt_left (.str ['\\', '/'] k r)

theorem regexUnit_char {r : Text} (k : Nat) (hc : c ≠ '/') (hpair : ¬ ['\\', '/'] <+: c :: r) :
    Step grammar atom regexUnit ⟨k, c :: r⟩ ⟨k + 1, r⟩ := by
  have hslash : Eval grammar { atom with quiet := true } (chr '/') ⟨k, c :: r⟩ none := by
    refine .str_fail fun h => hc ?_
    exact (List.cons_prefix_cons.mp h).1.symm
  exact .alt_right (.str_fail hpair) (.seq (.not_some hslash) (.skip_atomic atom_atomic)
    (.cls rfl k r))

theorem regexUnit_slash (k : Nat) (r : Text) :
    Eval grammar atom regexUnit ⟨k, '/' :: r⟩ none := by
  have hslash : Eval grammar { atom with quiet := true } (chr '/') ⟨k, '/' :: r⟩
      (some (⟨k + 1, r⟩, [])) := .str ['/'] k r
  exact .alt_right (.of_fails 1 rfl rfl) (.seq_left (.not_none hslash))

/-- The rounds go through a pattern whose slashes are escaped, up to a place that does not make
an escaped slash of its last backslash. -/
theorem regexUnit_steps {r : Text} (k : Nat) (hp : slashesEscaped p = true) (hr : Closed p ∨ r = []) :
    Relation.ReflTransGen (Step grammar atom regexUnit) ⟨k, p ++ r⟩ ⟨k + p.length, r⟩ := by
  induction p using slashesEscaped.induct generalizing k with
  | case1 => exact .refl
  | case2 rest ih =>
    refine .head (regexUnit_pair k (rest ++ r)) ?_
    have hlen : k + ('\\' :: '/' :: rest).length = k + 2 + rest.length := by
      simp only [List.length_cons]
      omega
    rw [hlen]
    exact ih (k + 2) hp (hr.imp_left fun h => h.tail.tail)
  | case3 c rest hcase ih =>
    rw [slashesEscaped.eq_3 c rest hcase, Bool.and_eq_true, bne_iff_ne] at hp
    refine .head (regexUnit_char k hp.1 ?_) ?_
    · rintro ⟨t, ht⟩
      obtain ⟨rfl, hrest⟩ := List.cons.inj ht
      cases rest with
      | nil =>
        obtain h | rfl := hr
        · exact h rfl
        · cases hrest
      | cons d q => exact hcase q rfl (congrArg (· :: q) (List.cons.inj hrest).1.symm)
    · have hlen : k + (c :: rest).length = k + 1 + rest.length := by
        rw [List.length_cons]
        omega
      rw [hlen]
      exact ih (k + 1) hp.2 (hr.imp_left Closed.tail)

theorem slashesEscaped_concat (hp : slashesEscaped p = true) (h : ¬ Closed p) :
    slashesEscaped (p ++ ['/']) = true := by
  induction p using slashesEscaped.induct with
  | case1 => exact absurd nofun h
  | case2 rest ih =>
    rw [List.cons_append, List.cons_append, slashesEscaped]
    exact ih hp fun hrest => h ((hrest.cons fun _ => by decide).cons nofun)
  | case3 c rest hcase ih =>
    rw [slashesEscaped.eq_3 c rest hcase, Bool.and_eq_true, bne_iff_ne] at hp
    cases rest with
    | nil =>
      have hc : c = '\\' := by
        by_contra hc
        exact h (Closed.cons nofun fun _ => hc)
      subst hc
      rfl
    | cons d rest =>
      rw [List.cons_append, slashesEscaped.eq_3, Bool.and_eq_true, bne_iff_ne]
      · exact ⟨hp.1, ih hp.2 fun hrest => h (hrest.cons nofun)⟩
      · rintro q rfl hq
        obtain ⟨rfl, -⟩ := List.cons.inj hq
        exact hcase rest rfl rfl

section Read

variable {p : Text} {k : Nat}

theorem regexTerm_read (hp : slashesEscaped p = true) (hc : Closed p) :
    Eval grammar inTerm (.rule .regexTerm) ⟨k, '/' :: (p ++ ['/'])⟩
      (some (⟨k + 1 + p.length + 1, []⟩,
        [.node .regexTerm ('/' :: (p ++ ['/'])) [.node .regexContent p []]])) := by
  have hcontent : Eval grammar inTerm (.rule .regexContent) ⟨k + 1, p ++ ['/']⟩
      (some (⟨k + 1 + p.length, ['/']⟩, [.node .regexContent p []])) :=
    .node rfl (.star_of_steps atom_atomic (regexUnit_steps (k + 1) hp (.inl hc))
      (regexUnit_slash _ _))
  have hopen : Eval grammar inTerm (chr '/') ⟨k, '/' :: (p ++ ['/'])⟩
      (some (⟨k + 1, p ++ ['/']⟩, [])) := .str ['/'] k _
  have hclose : Eval grammar inTerm (chr '/') ⟨k + 1 + p.length, ['/']⟩
      (some (⟨k + 1 + p.length + 1, []⟩, [])) := .str ['/'] _ []
  have hbody := Eval.seq hopen (.skip_atomic inTerm_atomic)
    (.seq hcontent (.skip_atomic inTerm_atomic) hclose)
  exact .node_end rfl hbody

/-- The last backslash of the pattern takes the closing slash away. -/
theorem regexTerm_fails (hp : slashesEscaped p = true) (hc : ¬ Closed p) :
    Eval grammar inTerm (.rule .regexTerm) ⟨k, '/' :: (p ++ ['/'])⟩ none := by
  have hsteps := regexUnit_steps (r := []) (k + 1) (slashesEscaped_concat hp hc) (.inr rfl)
  have hcontent : Eval grammar inTerm (.rule .regexContent) ⟨k + 1, p ++ ['/'] ++ []⟩
      (some (⟨k + 1 + (p ++ ['/']).length, []⟩, [.node .regexContent (p ++ ['/']) []])) :=
    .node rfl (.star_of_steps atom_atomic hsteps (.of_fails 9 rfl rfl))
  rw [List.append_nil] at hcontent
  have hopen : Eval grammar inTerm (chr '/') ⟨k, '/' :: (p ++ ['/'])⟩
      (some (⟨k + 1, p ++ ['/']⟩, [])) := .str ['/'] k _
  exact .rule_fail (.seq hopen (.skip_atomic inTerm_atomic)
    (.seq hcontent (.skip_atomic inTerm_atomic) (.of_fails 1 rfl rfl)))

theorem unquotedTerm_fails_slash (r : Text) :
    Eval grammar inTerm (.rule .unquotedTerm) ⟨k, '/' :: r⟩ none := by
  have hslash : Eval grammar { atom with quiet := true } (chr '/') ⟨k, '/' :: r⟩
      (some (⟨k + 1, r⟩, [])) := .str ['/'] k r
  have hmarks : ∀ e ∈ reservedMarks.dropLast, look grammar 9 e (some '/') = .fails := by decide
  have hreserved : Eval grammar { atom with quiet := true } reserved ⟨k, '/' :: r⟩
      (some (⟨k + 1, r⟩, [])) :=
    choice_matches reservedMarks.dropLast [.str kAnd, .str kOr, .str kNot]
      (fun e he => .of_fails 9 rfl (hmarks e he)) hslash
  have hchar : Eval grammar atom (.rule .termChar) ⟨k, '/' :: r⟩ none :=
    .rule_fail (.alt_right (.of_fails 9 rfl rfl) (.seq_left (.not_none hreserved)))
  exact .rule_fail (.seq_left (.alt_right hchar (.of_fails 9 rfl rfl)))

theorem skip_slash (r : Text) :
    Eval grammar top .skip ⟨0, '/' :: r⟩ (some (⟨0, '/' :: r⟩, [])) :=
  .of_idle 20 rfl rfl

/-- An input that begins with a slash can only be a regex. -/
theorem queryItem_of_regex {r : Text} {t : ParseTree Rule}
    (h : Eval grammar inTerm (.rule .regexTerm) ⟨0, '/' :: r⟩ (some (⟨k, []⟩, [t]))) :
    Eval grammar top (.rule .queryItem) (.start ('/' :: r))
      (some (⟨k, []⟩,
        [.node .singleQuery ('/' :: r) [.node .modifiedTerm ('/' :: r) [t]]])) := by
  have hregex : Eval grammar inTerm (.rule .term) ⟨0, '/' :: r⟩ (some (⟨k, []⟩, [t])) :=
    .silent rfl (.alt_left h)
  have hterm : Eval grammar top (.rule .modifiedTerm) ⟨0, '/' :: r⟩
      (some (⟨k, []⟩, [.node .modifiedTerm ('/' :: r) [t]])) :=
    .node_end rfl (.seq hregex (.skip_atomic inTerm_atomic) (.of_idle 20 rfl rfl))
  have hsingle : Eval grammar top (.rule .singleQuery) ⟨0, '/' :: r⟩
      (some (⟨k, []⟩, [.node .singleQuery ('/' :: r) [.node .modifiedTerm ('/' :: r) [t]]])) :=
    .node_end rfl (.seq (.of_idle 20 rfl rfl) (skip_slash r) (.alt_right (.of_fails 20 rfl rfl)
      (.alt_right (.of_fails 20 rfl rfl) (.alt_left hterm))))
  exact .silent rfl (.seq (.of_idle 20 rfl rfl) (skip_slash r) hsingle)

theorem queryItem_fails_regex {r : Text}
    (h : Eval grammar inTerm (.rule .regexTerm) ⟨0, '/' :: r⟩ none) :
    Eval grammar top (.rule .queryItem) (.start ('/' :: r)) none := by
  have hterm : Eval grammar top (.rule .modifiedTerm) ⟨0, '/' :: r⟩ none :=
    .rule_fail (.seq_left (.rule_fail (.alt_right h (.alt_right (.of_fails 20 rfl rfl)
      (unquotedTerm_fails_slash r)))))
  have hsingle : Eval grammar top (.rule .singleQuery) ⟨0, '/' :: r⟩ none :=
    .rule_fail (.seq (.of_idle 20 rfl rfl) (skip_slash r) (.alt_right (.of_fails 20 rfl rfl)
      (.alt_right (.of_fails 20 rfl rfl) (.alt_right hterm (.of_fails 20 rfl rfl)))))
  exact .rule_fail (.seq (.of_idle 20 rfl rfl) (skip_slash r) hsingle)

end Read

/-! ## Regex terms -/

def TermExpr.regex (value : Text) : TermExpr := ⟨value, false, true, none, none⟩

def slashed (p : Text) : Text := '/' :: (p ++ ['/'])

theorem parses_regex (hp : slashesEscaped p = true) (hc : Closed p) :
    Parses (slashed p) (.ok (.single (.term (.regex (unescape p))))) :=
  parses_of_item rfl (queryItem_of_regex (regexTerm_read hp hc)) rfl

theorem parses_regex_error (hp : slashesEscaped p = true) (hc : ¬ Closed p) :
    Parses (slashed p) (.error .syntaxError) :=
  parses_syntaxError rfl (queryItem_fails_regex (regexTerm_fails hp hc))

theorem regex_iff (hp : slashesEscaped p = true) :
    Parses (slashed p) (.ok (.single (.term (.regex (slashOnly p))))) ↔ kept p = true := by
  by_cases hc : Closed p
  · rw [← unescape_eq_slashOnly_iff hc]
    constructor
    · intro h
      simpa [Query.single, TermExpr.regex] using (parses_regex hp hc).unique h
    · intro h
      rw [← h]
      exact parses_regex hp hc
  · refine iff_of_false (fun h => ?_) fun h => hc (kept_closed h)
    cases (parses_regex_error hp hc).unique h

/-- Which patterns reach the regex term as they are, up to their escaped slashes. -/
theorem regex_text_iff (p : Text) :
    ('/' ∉ p → p.getLast? ≠ some '\\' →
      (Parses (slashed p) (.ok (.single (.term (.regex p)))) ↔ kept p = true)) ∧
    (slashesEscaped p = true →
      (Parses (slashed p) (.ok (.single (.term (.regex (slashOnly p))))) ↔ kept p = true)) := by
  refine ⟨fun h _ => ?_, regex_iff⟩
  have hiff := regex_iff (slashesEscaped_of_notMem h)
  rwa [slashOnly_of_notMem h] at hiff

/-- `\/` in a pattern reaches it as a slash. -/
theorem regex_text_iff_path :
    Parses (slashed ['a', '\\', '/', 'b']) (.ok (.single (.term (.regex ['a', '/', 'b'])))) :=
  ((regex_text_iff ['a', '\\', '/', 'b']).2 rfl).mpr rfl

/-- The class of digits becomes the letter `d`. -/
theorem regex_digits_lost :
    '/' ∉ ['\\', 'd'] ∧ ['\\', 'd'].getLast? ≠ some '\\' ∧
    Parses (slashed ['\\', 'd']) (.ok (.single (.term (.regex ['d'])))) ∧
    ¬ Parses (slashed ['\\', 'd']) (.ok (.single (.term (.regex ['\\', 'd'])))) := by
  have hparse : Parses (slashed ['\\', 'd']) (.ok (.single (.term (.regex ['d'])))) :=
    ⟨60, rfl⟩
  refine ⟨by decide, by decide, hparse, fun h => ?_⟩
  cases hparse.unique h

end OxKv.Lucene
