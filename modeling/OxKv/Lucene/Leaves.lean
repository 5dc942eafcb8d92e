import OxKv.Lucene.Eval

/-!
What a search sees of the leaves of a document.

A search without a path scans every leaf. A path opens every array on its way but only one at its
end, so a leaf in an array of arrays is found by the scan and by no path. And the words of a leaf
keep their letters while the term is lowercased.
-/

namespace OxKv.Lucene

/-! ## Leaves and their paths -/

section Paths

variable {ν : Type}

def Value.isLeaf : Value ν → Bool
  | .array _ => false
  | .object _ => false
  | _ => true

inductive Value.Distinct : Value ν → Prop
  | leaf {v : Value ν} (h : v.isLeaf = true) : v.Distinct
  | array {items : List (Value ν)} (h : ∀ v ∈ items, v.Distinct) : (Value.array items).Distinct
  | object {entries : List (Text × Value ν)} (hkeys : (entries.map Prod.fst).Nodup)
      (h : ∀ x ∈ entries, x.2.Distinct) : (Value.object entries).Distinct

/-- A path of keys leads to a leaf that stands in `n` arrays behind the last key. -/
inductive Reaches : Value ν → List Text → (n : Nat) → Value ν → Prop
  | leaf {v : Value ν} (h : v.isLeaf = true) : Reaches v [] 0 v
  | inner {items : List (Value ν)} {w v : Value ν} {n : Nat} (hw : w ∈ items)
      (h : Reaches w [] n v) : Reaches (.array items) [] (n + 1) v
  | item {items : List (Value ν)} {w v : Value ν} {key : Text} {path : List Text} {n : Nat}
      (hw : w ∈ items) (h : Reaches w (key :: path) n v) :
      Reaches (.array items) (key :: path) n v
  | entry {entries : List (Text × Value ν)} {w v : Value ν} {key : Text} {path : List Text}
      {n : Nat} (hw : (key, w) ∈ entries) (h : Reaches w path n v) :
      Reaches (.object entries) (key :: path) n v

variable {p : Value ν → Bool} {doc v : Value ν} {path : List Text} {n : Nat}

theorem Reaches.isLeaf (h : Reaches doc path n v) : v.isLeaf = true := by
  induction h with
  | leaf h => exact h
  | inner _ _ ih | item _ _ ih | entry _ _ ih => exact ih

theorem scan_leaf (h : v.isLeaf = true) : scanAnywhere p v = p v := by
  cases v <;> first | rfl | cases h

theorem scan_array (items : List (Value ν)) :
    scanAnywhere p (.array items) = items.any (scanAnywhere p) := by
  rw [scanAnywhere]
  induction items with
  | nil => rfl
  | cons v items ih => rw [scanItems, ih, List.any_cons]

theorem scan_object (entries : List (Text × Value ν)) :
    scanAnywhere p (.object entries) = entries.any fun x => scanAnywhere p x.2 := by
  rw [scanAnywhere]
  induction entries with
  | nil => rfl
  | cons x entries ih => rw [scanEntries, ih, List.any_cons]

theorem resolve_array (items : List (Value ν)) (head : Text) (tail : List Text) :
    resolvePath p (.array items) (head :: tail) =
      items.any fun v => resolvePath p v (head :: tail) := by
  rw [resolvePath]
  induction items with
  | nil => rfl
  | cons v items ih => rw [resolveItems, ih, List.any_cons]

theorem resolve_object {entries : List (Text × Value ν)} (hkeys : (entries.map Prod.fst).Nodup)
    (head : Text) (tail : List Text) :
    resolvePath p (.object entries) (head :: tail) = true ↔
      ∃ w, (head, w) ∈ entries ∧ resolvePath p w tail = true := by
  rw [resolvePath]
  induction entries with
  | nil => simp [resolveEntry]
  | cons x entries ih =>
    obtain ⟨key, v⟩ := x
    obtain ⟨hkey, hkeys⟩ := List.nodup_cons.mp hkeys
    rw [resolveEntry]
    split
    · next heq =>
      refine ⟨fun h => ⟨v, by simp [heq], h⟩, fun ⟨w, hw, h⟩ => ?_⟩
      rcases List.mem_cons.mp hw with hw | hw
      · cases hw
        exact h
      · exact absurd (List.mem_map_of_mem hw) (heq ▸ hkey)
    · next hne => simp [ih hkeys, Ne.symm hne]

/-- The scan sees every leaf. -/
theorem scan_iff (hd : doc.Distinct) :
    scanAnywhere p doc = true ↔ ∃ path n v, Reaches doc path n v ∧ p v = true := by
  constructor
  · intro h
    induction hd with
    | leaf hv => exact ⟨[], 0, _, .leaf hv, by rwa [scan_leaf hv] at h⟩
    | array _ ih =>
      obtain ⟨w, hw, h⟩ := List.any_eq_true.mp (scan_array _ ▸ h)
      obtain ⟨path, n, v, hr, hv⟩ := ih w hw h
      cases path with
      | nil => exact ⟨[], n + 1, v, .inner hw hr, hv⟩
      | cons key path => exact ⟨_, n, v, .item hw hr, hv⟩
    | object _ _ ih =>
      obtain ⟨x, hx, h⟩ := List.any_eq_true.mp (scan_object _ ▸ h)
      obtain ⟨path, n, v, hr, hv⟩ := ih x hx h
      exact ⟨_, n, v, .entry hx hr, hv⟩
  · rintro ⟨path, n, v, hr, hv⟩
    clear hd
    induction hr with
    | leaf h => rwa [scan_leaf h]
    | inner hw _ ih | item hw _ ih => exact scan_array _ ▸ List.any_eq_true.mpr ⟨_, hw, ih hv⟩
    | entry hw _ ih => exact scan_object _ ▸ List.any_eq_true.mpr ⟨_, hw, ih hv⟩

/-- A path sees the leaves at its end that stand in one array at most. -/
theorem resolve_iff (hp : ∀ v, p v = true → v.isLeaf = true) (hd : doc.Distinct) :
    resolvePath p doc path = true ↔ ∃ n v, n ≤ 1 ∧ Reaches doc path n v ∧ p v = true := by
  induction hd generalizing path with
  | @leaf v hv =>
    have hpath : resolvePath p v path = (path.isEmpty && p v) := by
      cases path <;> cases v <;> first | rfl | cases hv
    refine hpath ▸ ⟨fun h => ?_, fun ⟨n, u, _, hr, hu⟩ => ?_⟩
    · obtain ⟨hnil, hpv⟩ := Bool.and_eq_true_iff.mp h
      exact ⟨0, v, Nat.zero_le _, List.isEmpty_iff.mp hnil ▸ .leaf hv, hpv⟩
    · cases hr with
      | leaf => exact hu
      | inner | item | entry => cases hv
  | @array items h ih =>
    cases path with
    | nil =>
      refine ⟨fun h => ?_, fun ⟨n, u, hn, hr, hu⟩ => ?_⟩
      · obtain ⟨w, hw, hpw⟩ := List.any_eq_true.mp h
        exact ⟨1, w, Nat.le_refl _, .inner hw (.leaf (hp w hpw)), hpw⟩
      · cases hr with
        | leaf hv => cases hv
        | inner hw hr =>
          cases hr with
          | leaf => exact List.any_eq_true.mpr ⟨_, hw, hu⟩
          | inner => omega
    | cons key path =>
      rw [resolve_array, List.any_eq_true]
      refine ⟨fun ⟨w, hw, h⟩ => ?_, fun ⟨n, u, hn, hr, hu⟩ => ?_⟩
      · obtain ⟨n, u, hn, hr, hu⟩ := (ih w hw).mp h
        exact ⟨n, u, hn, .item hw hr, hu⟩
      · cases hr with
        | item hw hr => exact ⟨_, hw, (ih _ hw).mpr ⟨n, u, hn, hr, hu⟩⟩
  | @object entries hkeys h ih =>
    cases path with
    | nil =>
      refine ⟨fun h => absurd (hp _ h) Bool.false_ne_true, fun ⟨n, u, hn, hr, hu⟩ => ?_⟩
      cases hr with
      | leaf hv => cases hv
    | cons key path =>
      rw [resolve_object hkeys]
      refine ⟨fun ⟨w, hw, h⟩ => ?_, fun ⟨n, u, hn, hr, hu⟩ => ?_⟩
      · obtain ⟨n, u, hn, hr, hu⟩ := (ih _ hw).mp h
        exact ⟨n, u, hn, .entry hw hr, hu⟩
      · cases hr with
        | entry hw hr => exact ⟨_, hw, (ih _ hw).mpr ⟨n, u, hn, hr, hu⟩⟩

end Paths

/-! ## Searches with and without a path -/

section Scope

variable (X : Externs)

def Expression.isPlain : Expression → Bool
  | .term _ => true
  | .range .. => true
  | _ => false

/-- Such an expression tests single leaves. -/
theorem isPlain_test {e : Expression} (he : e.isPlain = true) :
    ∃ p : Value X.Number → Bool, (∀ v, p v = true → v.isLeaf = true) ∧
      ∀ doc path, evalExpr X doc path (compileExpr X e) = matchLeafValue doc path p := by
  have hterm : ∀ (kind : TermKind X) v, matchTerm X kind v = true → v.isLeaf = true := by
    intro kind v h
    cases v <;> first | rfl | cases h
  have hrange : ∀ (lo hi : Bound X) inc v, rangeMatches X lo hi inc v = true → v.isLeaf = true := by
    intro lo hi inc v h
    cases lo <;> cases hi <;> cases v <;> first | rfl | cases h
  have hdate : ∀ i (v : Value X.Number), dateLeafMatches v i = true → v.isLeaf = true := by
    intro i v h
    cases v <;> first | rfl | cases h
  cases e with
  | term t =>
    rw [compileExpr]
    split
    · exact ⟨_, hdate _, fun _ _ => by rw [evalExpr]⟩
    · exact ⟨_, hterm _, fun _ _ => by rw [evalExpr]⟩
  | range lo hi inc boost =>
    rw [compileExpr]
    split
    · exact ⟨_, hdate _, fun _ _ => by rw [evalExpr]⟩
    · exact ⟨_, hrange _ _ _, fun _ _ => by rw [evalExpr]⟩
  | field | subQuery => cases he

def Finds (doc : Value X.Number) (e : Expression) : Prop :=
  evalExpr X doc [] (compileExpr X e) = true

/-- The same expression scoped to a path. -/
def FindsAt (doc : Value X.Number) (path : List Text) (e : Expression) : Prop :=
  evalExpr X doc [] (.field path (compileExpr X e)) = true

/-- A search sees the same leaves with and without a path if and only if no path ends only at
matching leaves in arrays of arrays. -/
theorem scoped_search_iff (e : Expression) (he : e.isPlain = true)
    (entries : List (Text × Value X.Number)) (hd : (Value.object entries).Distinct) :
    ((Finds X (.object entries) e ↔ ∃ path, path ≠ [] ∧ FindsAt X (.object entries) path e) ∧
      ∀ path n v, Reaches (.object entries) path n v → Finds X v e →
        FindsAt X (.object entries) path e) ↔
    ∀ path n v, Reaches (.object entries) path n v → Finds X v e →
      ∃ n' v', n' ≤ 1 ∧ Reaches (.object entries) path n' v' ∧ Finds X v' e := by
  obtain ⟨p, hp, hmatch⟩ := isPlain_test X he
  have hne : ∀ {path n v}, Reaches (.object entries) path n v → path ≠ [] := by
    intro path n v hr hnil
    cases hr with
    | leaf h => cases h
    | entry => cases hnil
  have hleaf : ∀ {path n v}, Reaches (.object entries) path n v → (Finds X v e ↔ p v = true) := by
    intro path n v hr
    rw [Finds, hmatch, matchLeafValue, if_pos rfl, scan_leaf hr.isLeaf]
  have hscoped : ∀ path, path ≠ [] → (FindsAt X (.object entries) path e ↔
      ∃ n v, n ≤ 1 ∧ Reaches (.object entries) path n v ∧ p v = true) := by
    intro path hpath
    rw [FindsAt, evalExpr, List.nil_append, hmatch, matchLeafValue, if_neg hpath,
      resolve_iff hp hd]
  constructor
  · rintro ⟨-, h⟩ path n v hr hv
    obtain ⟨n', v', hn, hr', hv'⟩ := (hscoped path (hne hr)).mp (h path n v hr hv)
    exact ⟨n', v', hn, hr', (hleaf hr').mpr hv'⟩
  · intro h
    have hall : ∀ path n v, Reaches (.object entries) path n v → Finds X v e →
        FindsAt X (.object entries) path e := by
      intro path n v hr hv
      obtain ⟨n', v', hn, hr', hv'⟩ := h path n v hr hv
      exact (hscoped path (hne hr)).mpr ⟨n', v', hn, hr', (hleaf hr').mp hv'⟩
    refine ⟨?_, hall⟩
    rw [Finds, hmatch, matchLeafValue, if_pos rfl, scan_iff hd]
    constructor
    · rintro ⟨path, n, v, hr, hv⟩
      exact ⟨path, hne hr, hall path n v hr ((hleaf hr).mpr hv)⟩
    · rintro ⟨path, hpath, h⟩
      obtain ⟨n, v, -, hr, hv⟩ := (hscoped path hpath).mp h
      exact ⟨path, n, v, hr, hv⟩

/-- An array of an object, next to an object of an array. -/
def nestedEntries : List (Text × Value asciiExterns.Number) :=
  [(['a'], .array [.object [(['b'], .string ['x'])]]),
    (['c'], .object [(['d'], .array [.string ['x']])])]

theorem nestedEntries_distinct : (Value.object nestedEntries).Distinct := by
  have hone : ∀ {v : Value asciiExterns.Number} {k : Text}, v.Distinct →
      (Value.object [(k, v)]).Distinct := fun h =>
    .object (by simp) (List.forall_mem_singleton.mpr h)
  exact .object (by decide) (List.forall_mem_cons.mpr
    ⟨.array (List.forall_mem_singleton.mpr (hone (.leaf rfl))), List.forall_mem_singleton.mpr
      (hone (.array (List.forall_mem_singleton.mpr (.leaf rfl))))⟩)

/-- At most one array stands behind the last key. -/
theorem nestedEntries_depth {path : List Text} {n : Nat} {v : Value asciiExterns.Number}
    (h : Reaches (.object nestedEntries) path n v) : n ≤ 1 := by
  cases h with
  | leaf h => cases h
  | entry hw h =>
    rcases List.mem_cons.mp hw with heq | hw
    · cases heq
      cases h with
      | leaf h => cases h
      | inner hw h =>
        cases List.mem_singleton.mp hw
        cases h with
        | leaf h => cases h
      | item hw h =>
        cases List.mem_singleton.mp hw
        cases h with
        | entry hw h =>
          cases List.mem_singleton.mp hw
          cases h
          exact Nat.zero_le 1
    · cases List.mem_singleton.mp hw
      cases h with
      | leaf h => cases h
      | entry hw h =>
        cases List.mem_singleton.mp hw
        cases h with
        | leaf h => cases h
        | inner hw h =>
          cases List.mem_singleton.mp hw
          cases h
          exact Nat.le_refl 1
        | item hw h =>
          cases List.mem_singleton.mp hw
          cases h

theorem scoped_search_found :
    (Finds asciiExterns (.object nestedEntries) (.term (.plain ['x'])) ↔ ∃ path, path ≠ [] ∧
      FindsAt asciiExterns (.object nestedEntries) path (.term (.plain ['x']))) ∧
    FindsAt asciiExterns (.object nestedEntries) [['a'], ['b']] (.term (.plain ['x'])) ∧
    FindsAt asciiExterns (.object nestedEntries) [['c'], ['d']] (.term (.plain ['x'])) := by
  obtain ⟨hiff, hall⟩ := (scoped_search_iff asciiExterns (.term (.plain ['x'])) rfl nestedEntries
    nestedEntries_distinct).mpr fun path n v hr hv => ⟨n, v, nestedEntries_depth hr, hr, hv⟩
  have hx : Finds asciiExterns (.string ['x']) (.term (.plain ['x'])) := by
    unfold Finds
    decide +kernel
  have hb : Reaches (.object nestedEntries) [['a'], ['b']] 0 (.string ['x']) :=
    .entry (List.mem_cons_self ..) (.item (List.mem_singleton_self _)
      (.entry (List.mem_singleton_self _) (.leaf rfl)))
  have hd : Reaches (.object nestedEntries) [['c'], ['d']] 1 (.string ['x']) :=
    .entry (List.mem_cons_of_mem _ (List.mem_singleton_self _))
      (.entry (List.mem_singleton_self _) (.inner (List.mem_singleton_self _) (.leaf rfl)))
  exact ⟨hiff, hall _ _ _ hb hx, hall _ _ _ hd hx⟩

theorem nested_array_missed :
    Finds asciiExterns (.object [(['a'], .array [.array [.string ['x']]])])
      (.term (.plain ['x'])) ∧
    ¬ ∃ path, path ≠ [] ∧ FindsAt asciiExterns
      (.object [(['a'], .array [.array [.string ['x']]])]) path (.term (.plain ['x'])) := by
  refine ⟨by unfold Finds; decide +kernel, fun ⟨path, hpath, h⟩ => ?_⟩
  cases path with
  | nil => exact hpath rfl
  | cons key tail =>
    have h : resolveEntry (matchTerm asciiExterns (.fuzzyToken ['x'] 2)) _ key tail = true := h
    rw [resolveEntry] at h
    split at h
    · cases tail <;> cases h
    · cases h

end Scope

/-! ## The case of letters -/

/-- A term without quotes and wildcards that is not a date. -/
structure TermExpr.Bare (t : TermExpr) : Prop where
  quoted : t.isQuoted = false
  regex : t.isRegex = false
  glob : ¬ ('*' ∈ t.value ∨ '?' ∈ t.value)
  date : dateTerm t = none

/-- The case and the kind of ASCII characters are the usual ones, the edit distance is the standard
one. -/
structure Externs.Standard (X : Externs) : Prop where
  lower : ∀ text, Ascii text → X.toLowercase text = text.map Char.toLower
  word : ∀ c, c.toNat < 128 → X.isAlphanumeric c = c.isAlphanum
  distance : ∀ a b, X.levenshtein a b = editDistance a b

theorem asciiExterns_standard : asciiExterns.Standard :=
  ⟨fun _ _ => rfl, fun _ _ => rfl, fun _ _ => rfl⟩

section Case

theorem mem_splitOnP {α : Type} {p : α → Bool} {x : α} {l : List α} :
    (∃ piece ∈ l.splitOnP p, x ∈ piece) ↔ x ∈ l ∧ p x = false := by
  induction l with
  | nil => simp
  | cons y l ih =>
    rw [List.splitOnP_cons_eq_if_modifyHead]
    cases hsplit : l.splitOnP p with
    | nil => exact absurd hsplit (List.splitOnP_ne_nil p l)
    | cons piece pieces =>
      simp only [hsplit, List.mem_cons, exists_eq_or_imp] at ih
      by_cases hxy : x = y
      · subst hxy
        cases hp : p x <;> simp
        simpa [hp] using ih
      · cases hp : p y <;> simp [hxy, ih]

variable {X : Externs} {text leaf : Text} {c : Char}

/-- The characters of the words. -/
theorem mem_tokensCi :
    (∃ token ∈ tokensCi X text, c ∈ token) ↔ c ∈ text ∧ X.isAlphanumeric c = true := by
  have hpiece := mem_splitOnP (p := fun c => !X.isAlphanumeric c) (x := c) (l := text)
  rw [Bool.not_eq_false'] at hpiece
  rw [← hpiece, tokensCi]
  constructor
  · rintro ⟨token, htoken, hc⟩
    exact ⟨token, (List.mem_filter.mp htoken).1, hc⟩
  · rintro ⟨token, htoken, hc⟩
    exact ⟨token, List.mem_filter.mpr ⟨htoken, by simpa using List.ne_nil_of_mem hc⟩, hc⟩

theorem finds_bare {t : TermExpr} (ht : t.Bare) : Finds X (.string leaf) (.term t) ↔
    ∃ token ∈ tokensCi X leaf, X.levenshtein (X.toLowercase t.value) token ≤ t.fuzzySlop.getD 2 := by
  have hkind : compileExpr X (.term t) =
      .term (.fuzzyToken (X.toLowercase t.value) (t.fuzzySlop.getD 2)) := by
    rw [compileExpr, ht.date]
    simp only [compileTerm, ht.quoted, ht.regex, if_neg ht.glob]
    cases t.fuzzySlop <;> rfl
  rw [Finds, hkind, evalExpr, matchLeafValue, if_pos rfl, scan_leaf rfl, matchTerm, matchStringKind,
    List.any_eq_true]
  simp only [decide_eq_true_eq]

/-! ### ASCII characters -/

theorem toLower_ascii : ∀ c : Char, c.toNat < 128 → c.toLower.toNat < 128 ∧
    c.toLower.toLower = c.toLower ∧ c.toLower.isUpper = false ∧
    c.toLower.isAlphanum = c.isAlphanum ∧ (c.toLower = c ↔ c.isUpper = false) :=
  forall_ascii (by decide +kernel)

theorem toUpper_ascii : ∀ c : Char, c.toNat < 128 → c.toUpper.toNat < 128 ∧
    c.toUpper.toLower = c.toLower ∧ c.toUpper.isLower = false :=
  forall_ascii (by decide +kernel)

theorem isAlpha_ascii : ∀ c : Char, c.toNat < 128 → c.toLower.isLower = c.isAlpha ∧
    (c.isAlpha = true → c.isAlphanum = true) ∧ (c.isAlpha = false → c.toLower = c) :=
  forall_ascii (by decide +kernel)

theorem ascii_map {f : Char → Char} (h : Ascii text) (hf : ∀ c, c.toNat < 128 → (f c).toNat < 128) :
    Ascii (text.map f) := by
  intro c hc
  obtain ⟨d, hd, rfl⟩ := List.mem_map.mp hc
  exact hf d (h d hd)

/-- Texts without letters are not changed by the case. -/
theorem eq_of_toLower {text' : Text} (h : Ascii text) (h' : Ascii text')
    (hplain : ∀ c ∈ text, c.isAlpha = false)
    (heq : text'.map Char.toLower = text.map Char.toLower) : text' = text := by
  induction text generalizing text' with
  | nil => exact List.map_eq_nil_iff.mp heq
  | cons c text ih =>
    cases text' with
    | nil => cases heq
    | cons c' text' =>
      obtain ⟨hc, htext⟩ := List.forall_mem_cons.mp hplain
      obtain ⟨hca, ha⟩ := List.forall_mem_cons.mp h
      obtain ⟨hca', ha'⟩ := List.forall_mem_cons.mp h'
      obtain ⟨hhead, htail⟩ := List.cons.inj heq
      have hsame := (isAlpha_ascii c hca).2.2 hc
      have hc' : c'.isAlpha = false := by
        rw [← (isAlpha_ascii c' hca').1, hhead, (isAlpha_ascii c hca).1, hc]
      rw [(isAlpha_ascii c' hca').2.2 hc', hsame] at hhead
      rw [hhead, ih ha ha' htext htail]

/-- Every capital of a word counts. -/
theorem distance_lower {word : Text} (h : Ascii word) :
    editDistance (word.map Char.toLower) word = word.countP Char.isUpper := by
  apply Nat.le_antisymm
  · refine Nat.le_trans (EditDistance.map_le _ _) (List.countP_mono_left fun c hc hne => ?_)
    rw [decide_eq_true_eq, Ne, (toLower_ascii c (h c hc)).2.2.2.2] at hne
    simpa using hne
  · refine Nat.le_trans (List.countP_mono_left fun c hc hup => ?_)
      (EditDistance.countP_notMem_le _ _)
    rw [decide_eq_true_eq]
    intro hmem
    obtain ⟨d, hd, rfl⟩ := List.mem_map.mp hmem
    rw [(toLower_ascii d (h d hd)).2.2.1] at hup
    cases hup

/-- A text of word characters is one word. -/
theorem tokensCi_word {word : Text} (hne : word ≠ []) (h : ∀ c ∈ word, X.isAlphanumeric c = true) :
    tokensCi X word = [word] := by
  rw [tokensCi, List.splitOnP_eq_singleton fun c hc => by simp [h c hc]]
  simp [hne]

/-! ### Terms and leaves -/

/-- A word that the leaf has in lower case and in no upper case. -/
theorem lower_word (hX : X.Standard) (hleaf : Ascii leaf) (hc : c ∈ leaf)
    (halpha : c.isAlpha = true) :
    ∃ t : TermExpr, t.Bare ∧ Finds X (.string (leaf.map Char.toLower)) (.term t) ∧
      ¬ Finds X (.string (leaf.map Char.toUpper)) (.term t) := by
  have hlow : Ascii (leaf.map Char.toLower) := ascii_map hleaf fun c hc => (toLower_ascii c hc).1
  have hmem : c.toLower ∈ leaf.map Char.toLower := List.mem_map_of_mem hc
  have halnum : X.isAlphanumeric c.toLower = true := by
    rw [hX.word _ (hlow _ hmem), (toLower_ascii c (hleaf c hc)).2.2.2.1]
    exact (isAlpha_ascii c (hleaf c hc)).2.1 halpha
  obtain ⟨word, hword, hin⟩ := mem_tokensCi.mpr ⟨hmem, halnum⟩
  have hchars : ∀ d ∈ word, d ∈ leaf.map Char.toLower ∧ X.isAlphanumeric d = true :=
    fun d hd => mem_tokensCi.mp ⟨word, hword, hd⟩
  have hlower : X.toLowercase word = word := by
    rw [hX.lower _ fun d hd => hlow d (hchars d hd).1]
    refine List.map_congr_left (g := id) (fun d hd => ?_) |>.trans (List.map_id _)
    obtain ⟨b, hb, rfl⟩ := List.mem_map.mp (hchars d hd).1
    exact (toLower_ascii b (hleaf b hb)).2.1
  have hnot : ∀ d : Char, d.toNat < 128 → d.isAlphanum = false → d ∉ word := by
    intro d hd hno hmem
    rw [← hX.word d hd, (hchars d hmem).2] at hno
    cases hno
  have hbare : TermExpr.Bare ⟨word, false, false, some 0, none⟩ :=
    ⟨rfl, rfl, not_or.mpr ⟨hnot '*' (by decide) (by decide), hnot '?' (by decide) (by decide)⟩, rfl⟩
  refine ⟨_, hbare, ?_, ?_⟩ <;> rw [finds_bare hbare, hlower]
  · exact ⟨word, hword, by rw [hX.distance, EditDistance.self]; exact Nat.zero_le _⟩
  · rintro ⟨token, htoken, hdist⟩
    rw [hX.distance] at hdist
    obtain rfl := EditDistance.eq_of_eq_zero (Nat.le_zero.mp hdist)
    obtain ⟨d, hd, heq⟩ := List.mem_map.mp (mem_tokensCi.mp ⟨_, htoken, hin⟩).1
    have hcase := (toUpper_ascii d (hleaf d hd)).2.2
    rw [heq, (isAlpha_ascii c (hleaf c hc)).1, halpha] at hcase
    cases hcase

/-- The case of the letters of a bare term never matters. That of a leaf matters exactly if it has
letters. An alphanumeric term matches all leaves with one of its casings as a word exactly if this
has no more capitals than the term allows edits. -/
theorem letter_case_iff (X : Externs) (hX : X.Standard) :
    (∀ t t' : TermExpr, t.Bare → t'.Bare → t'.fuzzySlop = t.fuzzySlop →
      X.toLowercase t'.value = X.toLowercase t.value →
      ∀ leaf, Finds X (.string leaf) (.term t') ↔ Finds X (.string leaf) (.term t)) ∧
    (∀ leaf, Ascii leaf →
      ((∀ t : TermExpr, ∀ leaf', t.Bare → Ascii leaf' →
        X.toLowercase leaf' = X.toLowercase leaf →
        (Finds X (.string leaf') (.term t) ↔ Finds X (.string leaf) (.term t))) ↔
      ∀ c ∈ leaf, c.isAlpha = false)) ∧
    ∀ (t : TermExpr) (word : Text), t.Bare → Ascii t.value →
      (∀ c ∈ t.value, X.isAlphanumeric c = true) → Ascii word →
      X.toLowercase word = X.toLowercase t.value →
      ((∀ leaf, Ascii leaf → word ∈ tokensCi X leaf → Finds X (.string leaf) (.term t)) ↔
        word.countP Char.isUpper ≤ t.fuzzySlop.getD 2) := by
  refine ⟨fun t t' ht ht' hslop hterm leaf => ?_, fun leaf hleaf => ⟨fun h c hc => ?_, ?_⟩, ?_⟩
  · rw [finds_bare ht', finds_bare ht, hslop, hterm]
  · by_contra halpha
    obtain ⟨t, ht, hfound, hlost⟩ := lower_word hX hleaf hc (by simpa using halpha)
    have hlow : Ascii (leaf.map Char.toLower) := ascii_map hleaf fun c hc => (toLower_ascii c hc).1
    have hup : Ascii (leaf.map Char.toUpper) := ascii_map hleaf fun c hc => (toUpper_ascii c hc).1
    rw [h t _ ht hlow, ← h t _ ht hup] at hfound
    · exact hlost hfound
    · rw [hX.lower _ hup, hX.lower _ hleaf, List.map_map]
      exact List.map_congr_left fun d hd => (toUpper_ascii d (hleaf d hd)).2.1
    · rw [hX.lower _ hlow, hX.lower _ hleaf, List.map_map]
      exact List.map_congr_left fun d hd => (toLower_ascii d (hleaf d hd)).2.1
  · intro h t leaf' ht hleaf' hcase
    rw [hX.lower _ hleaf', hX.lower _ hleaf] at hcase
    rw [eq_of_toLower hleaf hleaf' h hcase]
  · intro t word ht hascii halnum hword hcase
    rw [hX.lower _ hword, hX.lower _ hascii] at hcase
    have hdist : X.levenshtein (X.toLowercase t.value) word = word.countP Char.isUpper := by
      rw [hX.distance, hX.lower _ hascii, ← hcase, distance_lower hword]
    constructor
    · intro h
      by_cases hne : word = []
      · rw [hne]
        exact Nat.zero_le _
      -- the word itself is a leaf with no other word
      have hchars : ∀ c ∈ word, X.isAlphanumeric c = true := by
        intro c hc
        obtain ⟨d, hd, hcd⟩ := List.mem_map.mp (hcase ▸ List.mem_map_of_mem (f := Char.toLower) hc)
        rw [hX.word c (hword c hc), ← (toLower_ascii c (hword c hc)).2.2.2.1, ← hcd,
          (toLower_ascii d (hascii d hd)).2.2.2.1, ← hX.word d (hascii d hd)]
        exact halnum d hd
      have hone := tokensCi_word hne hchars
      obtain ⟨token, htoken, hle⟩ := (finds_bare ht).mp (h word hword (by simp [hone]))
      rw [hone, List.mem_singleton] at htoken
      rwa [htoken, hdist] at hle
    · intro h leaf _ hmem
      exact (finds_bare ht).mpr ⟨word, hmem, hdist ▸ h⟩

theorem letter_case_iff_rust :
    (Finds asciiExterns (.string ['R', 'u', 's', 't']) (.term (.plain ['R', 'U', 'S'])) ↔
      Finds asciiExterns (.string ['R', 'u', 's', 't']) (.term (.plain ['r', 'u', 's']))) ∧
    (¬ ∀ t : TermExpr, ∀ leaf', t.Bare → Ascii leaf' →
      asciiExterns.toLowercase leaf' = asciiExterns.toLowercase ['R', 'u', 's', 't'] →
      (Finds asciiExterns (.string leaf') (.term t) ↔
        Finds asciiExterns (.string ['R', 'u', 's', 't']) (.term t))) ∧
    (∀ leaf, Ascii leaf → ['R', 'U', 's'] ∈ tokensCi asciiExterns leaf →
      Finds asciiExterns (.string leaf) (.term (.plain ['r', 'u', 's']))) ∧
    ¬ ∀ leaf, Ascii leaf → ['R', 'U', 'S'] ∈ tokensCi asciiExterns leaf →
      Finds asciiExterns (.string leaf) (.term (.plain ['r', 'u', 's'])) := by
  have hlow : TermExpr.Bare (.plain ['r', 'u', 's']) := ⟨rfl, rfl, by simp [TermExpr.plain], rfl⟩
  have hup : TermExpr.Bare (.plain ['R', 'U', 'S']) := ⟨rfl, rfl, by simp [TermExpr.plain], rfl⟩
  obtain ⟨hterm, hleaf, hword⟩ := letter_case_iff asciiExterns asciiExterns_standard
  refine ⟨hterm _ _ hlow hup rfl rfl _, ?_, ?_, ?_⟩
  · rw [hleaf _ (by simp [Ascii])]
    exact fun h => absurd (h 'R' (by simp)) (by decide)
  · exact (hword _ ['R', 'U', 's'] hlow (by simp [TermExpr.plain, Ascii])
      (by simp [TermExpr.plain]; decide) (by simp [Ascii]) rfl).mpr (by decide)
  · rw [hword _ ['R', 'U', 'S'] hlow (by simp [TermExpr.plain, Ascii])
      (by simp [TermExpr.plain]; decide) (by simp [Ascii]) rfl]
    decide

/-- The default distance of two is not enough for four capitals. -/
theorem capitals_missed :
    Finds asciiExterns (.string ['r', 'u', 's', 't']) (.term (.plain ['r', 'u', 's', 't'])) ∧
    ¬ Finds asciiExterns (.string ['R', 'U', 'S', 'T']) (.term (.plain ['r', 'u', 's', 't'])) := by
  unfold Finds
  decide +kernel

end Case

end OxKv.Lucene
