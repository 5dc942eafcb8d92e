import OxKv.Mirror.Pools
import OxKv.Mirror.Refresh

/-!
What readers of a warmed mirror see of a commit.

A commit reaches the mirror key by key. A read between two of these updates sees a part
of the transaction.

* `commits_visible_at_once`: if the map is not accessed by others between the first and
  the last update of a commit, then every read sees the map after whole updates, those of
  some moment between the read's beginning and its reply.
-/

namespace OxKv

/-! ## What a read may see -/

/-- The map after whole updates, newest first. -/
def BTreeStore.after (map : BTreeStore) (updates : List (Nat × List Op)) : BTreeStore :=
  updates.foldr (fun u m => Plain.applyAll m u.2) map

/-- The updates that were finished before report number `n`. -/
def before (n : Nat) (updates : List (Nat × List Op)) : List (Nat × List Op) :=
  updates.filter fun u => u.1 ≤ n

/-- The reports before the call that a thread issued last. -/
def past (who : Who) : Reports → Reports
  | [] => []
  | (who', .invoked _) :: h => if who' = who then h else past who h
  | (_, .returned _ _) :: h => past who h

def begun (who : Who) (h : Reports) : Nat := (past who h).length

/-- The reply of a read that sees the given map. -/
def CachedCall.Sees (map : BTreeStore) : CachedCall → Reply → Prop
  | .get key, .value (.ok v) => v = map.get? key
  | .has key, .flag (.ok b) => b = (map.get? key).isSome
  | .gets limit d c, .rows (.ok rows) => rows = map.getsBytes limit d c
  | _, _ => True

/-- A read saw the map after whole updates, all those that were finished when it began
and none that was not when it replied. -/
def CachedCall.SeesWhole (map : BTreeStore) (updates : List (Nat × List Op)) (start stop : Nat)
    (c : CachedCall) (r : Reply) : Prop :=
  ∃ l, before start updates <:+ l ∧ l <:+ before stop updates ∧ c.Sees (map.after l) r

/-- The actions that read or change the map of a mirror. -/
def MirrorAct.touches {β : Type} : MirrorAct β → Bool
  | .mapGet _ | .mapHas _ | .mapPut _ _ | .mapDelete _ | .mapGets _ _ _ | .mapApply _ _ => true
  | _ => false

/-- When a thread accesses the map, no other thread is between two updates of a commit. -/
def Undivided (i : Nat) : MirrorCond := fun who a e =>
  who.inst = i → a.touches = true → ∀ x ∈ (e.inst i).applying, x.1 = who.thread

/-- The calls that do not fill the mirror anew. -/
def CachedCall.steady : CachedCall → Bool
  | .warm | .warmStep _ | .refresh | .getChecked _ | .hasChecked _ | .getsChecked _ _ _ => false
  | _ => true

def CachedJob.Steady : CachedJob → Prop
  | .clone _ _ calls => ∀ c ∈ calls, c.steady = true
  | .plain _ => True

/-- The calls that the threads issue, by number. -/
abbrev CachedCalls := Who → Nat → Option CachedCall

/-- The call that a thread issued under a number. -/
def callOf (jobs : List CachedJob) (who : Who) (n : Nat) : Option CachedCall :=
  match jobs[who.thread]? with
  | some (.clone _ _ calls) => calls[n]?
  | _ => none

def Mirrors.fresh (e : Mirrors) : Mirrors :=
  ⟨fun i => { e.inst i with applying := [], updates := [] }, []⟩

/-! ## Lemmas about the records -/

section Records

variable {l l' : List (Nat × List Op)} {n : Nat}

theorem before_append (l l' : List (Nat × List Op)) (n : Nat) :
    before n (l ++ l') = before n l ++ before n l' :=
  List.filter_append ..

theorem before_of_late (h : ∀ u ∈ l, n < u.1) : before n l = [] :=
  List.filter_eq_nil_iff.mpr fun u hu => by simpa using h u hu

theorem before_of_early (h : ∀ u ∈ l, u.1 ≤ n) : before n l = l :=
  List.filter_eq_self.mpr fun u hu => by simpa using h u hu

/-- With the newest update first, what was finished before is the rest of the list. -/
theorem before_suffix (h : l.Pairwise fun a b => b.1 ≤ a.1) : before n l <:+ l := by
  induction l with
  | nil => exact List.suffix_rfl
  | cons u l ih =>
    obtain ⟨hu, hl⟩ := List.pairwise_cons.mp h
    by_cases hn : u.1 ≤ n
    · rw [before_of_early]
      intro v hv
      rcases List.mem_cons.mp hv with rfl | hv
      · exact hn
      · exact (hu v hv).trans hn
    · have hskip : before n (u :: l) = before n l := List.filter_cons_of_neg (by simpa using hn)
      rw [hskip]
      exact (ih hl).trans (List.suffix_cons u l)

theorem past_append {who : Who} {t h : Reports} (ht : ∀ x ∈ t, x.1 ≠ who) :
    past who (t ++ h) = past who h := by
  induction t with
  | nil => rfl
  | cons x t ih =>
    obtain ⟨who', m⟩ := x
    have hne : who' ≠ who := ht _ List.mem_cons_self
    have ih' := ih fun y hy => ht y (List.mem_cons_of_mem _ hy)
    cases m with
    | invoked n => simpa [past, hne] using ih'
    | returned n r => simpa [past] using ih'

theorem begun_le (who : Who) (h : Reports) : begun who h ≤ h.length := by
  refine List.IsSuffix.length_le ?_
  induction h with
  | nil => exact List.suffix_rfl
  | cons x h ih =>
    obtain ⟨who', _ | _⟩ := x
    · rw [past]
      split
      · exact List.suffix_cons _ h
      · exact ih.trans (List.suffix_cons _ h)
    · exact ih.trans (List.suffix_cons _ h)

theorem CachedCall.SeesWhole.later {map : BTreeStore} {start stop : Nat} {c : CachedCall}
    {r : Reply} (h : c.SeesWhole map l start stop r) (hle : start ≤ stop)
    (hl : ∀ u ∈ l', stop < u.1) : c.SeesWhole map (l' ++ l) start stop r := by
  obtain ⟨k, hk, hk', hsees⟩ := h
  refine ⟨k, ?_, ?_, hsees⟩
  · rw [before_append, before_of_late fun u hu => Nat.lt_of_le_of_lt hle (hl u hu)]
    exact hk
  · rw [before_append, before_of_late hl]
    exact hk'

end Records

/-! ## Invariant, rely and guarantee -/

section Rules

variable (i : Nat) (m₀ : BTreeStore) (calls : CachedCalls)

structure VisibleInv (e : Mirrors) : Prop where
  warmed : (e.inst i).state.warmed = true
  alone : (e.inst i).applying.length ≤ 1
  /-- the map holds the finished updates and those of the commit under way -/
  map : (e.inst i).map = Plain.applyAll (m₀.after (e.inst i).updates)
    ((e.inst i).applying.flatMap Prod.snd)
  sorted : (e.inst i).updates.Pairwise fun a b => b.1 ≤ a.1
  stamped : ∀ u ∈ (e.inst i).updates, u.1 ≤ e.hist.length
  replies : ∀ h who n r, ((who, .returned n r) :: h) <:+ e.hist → who.inst = i →
    ∀ c, calls who n = some c → c.SeesWhole m₀ (e.inst i).updates (begun who h) h.length r

/-- Reports and updates are only added. -/
structure Extends (P : Who → Prop) (e e' : Mirrors) : Prop where
  hist : ∃ t, e'.hist = t ++ e.hist ∧ ∀ x ∈ t, P x.1
  updates : ∃ l, (e'.inst i).updates = l ++ (e.inst i).updates ∧ ∀ u ∈ l, e.hist.length ≤ u.1

/-- The commit of a thread is not disturbed. -/
structure Undisturbed (thread : Nat) (e e' : Mirrors) : Prop where
  busy : (∃ ops, (thread, ops) ∈ (e.inst i).applying) →
    (e'.inst i).map = (e.inst i).map ∧ (e'.inst i).applying = (e.inst i).applying ∧
      (e'.inst i).updates = (e.inst i).updates
  idle : (∀ x ∈ (e.inst i).applying, x.1 ≠ thread) → ∀ x ∈ (e'.inst i).applying, x.1 ≠ thread

variable {i}

theorem Extends.refl (P : Who → Prop) (e : Mirrors) : Extends i P e e :=
  ⟨⟨[], rfl, nofun⟩, ⟨[], rfl, nofun⟩⟩

variable {P : Who → Prop}

theorem Extends.trans {e1 e2 e3 : Mirrors} (h : Extends i P e1 e2) (h' : Extends i P e2 e3) :
    Extends i P e1 e3 := by
  obtain ⟨⟨t, ht, hp⟩, ⟨l, hl, hu⟩⟩ := h
  obtain ⟨⟨t', ht', hp'⟩, ⟨l', hl', hu'⟩⟩ := h'
  refine ⟨⟨t' ++ t, by rw [ht', ht, List.append_assoc], fun x hx => ?_⟩,
    ⟨l' ++ l, by rw [hl', hl, List.append_assoc], fun u hmem => ?_⟩⟩
  · exact (List.mem_append.mp hx).elim (hp' x) (hp x)
  · rcases List.mem_append.mp hmem with hmem | hmem
    · have := hu' u hmem
      rw [ht, List.length_append] at this
      omega
    · exact hu u hmem

variable {e : Mirrors}

theorem Extends.suffix {e' : Mirrors} (h : Extends i P e e') :
    (e.inst i).updates <:+ (e'.inst i).updates := by
  obtain ⟨l, hl, -⟩ := h.updates
  exact ⟨l, hl.symm⟩

theorem Undisturbed.refl (thread : Nat) (e : Mirrors) : Undisturbed i thread e e :=
  ⟨fun _ => ⟨rfl, rfl, rfl⟩, id⟩

theorem Undisturbed.trans {thread : Nat} {e1 e2 e3 : Mirrors} (h : Undisturbed i thread e1 e2)
    (h' : Undisturbed i thread e2 e3) : Undisturbed i thread e1 e3 := by
  refine ⟨fun hb => ?_, fun hidle => h'.idle (h.idle hidle)⟩
  obtain ⟨hm, ha, hu⟩ := h.busy hb
  obtain ⟨hm', ha', hu'⟩ := h'.busy (ha ▸ hb)
  exact ⟨hm'.trans hm, ha'.trans ha, hu'.trans hu⟩

variable (i)

/-- The rules for the readers and writers of one warmed mirror. -/
def visible : Outer Who Mirrors where
  inv := VisibleInv i m₀ calls
  rely who e e' := Extends i (· ≠ who) e e' ∧ (who.inst = i → Undisturbed i who.thread e e')
  guar who e e' := Extends i (· = who) e e' ∧
    ∀ thread, who ≠ ⟨thread, i⟩ → Undisturbed i thread e e'
  rely_refl _ e := ⟨.refl _ e, fun _ => .refl _ e⟩
  rely_trans _ _ _ _ h h' := ⟨h.1.trans h'.1, fun hw => (h.2 hw).trans (h'.2 hw)⟩
  guar_refl _ e := ⟨.refl _ e, fun _ _ => .refl _ e⟩

theorem visible_compatible (w w' : Who) (e e' : Mirrors) (hne : w ≠ w')
    (h : (visible i m₀ calls).guar w e e') : (visible i m₀ calls).rely w' e e' := by
  obtain ⟨⟨⟨t, ht, hp⟩, hu⟩, hun⟩ := h
  refine ⟨⟨⟨t, ht, fun x hx => (hp x hx) ▸ hne⟩, hu⟩, fun hw => hun w'.thread ?_⟩
  rintro rfl
  exact hne (by rw [← hw])

variable {i m₀ calls}

/-- A change of the mirror that keeps the map, its records and the warm state. -/
def SameMap (x y : Mirror) : Prop :=
  y.map = x.map ∧ y.applying = x.applying ∧ y.updates = x.updates ∧
    y.state.warmed = x.state.warmed

variable {y : Mirror}

/-- A step that leaves the map and finishes at most one update. -/
theorem VisibleInv.set {new : List (Nat × List Op)} (h : VisibleInv i m₀ calls e)
    (hwarm : y.state.warmed = true) (halone : y.applying.length ≤ 1)
    (hnew : y.updates = new ++ (e.inst i).updates) (hone : new.length ≤ 1)
    (hstamp : ∀ u ∈ new, u.1 = e.hist.length)
    (hmap : y.map = Plain.applyAll (m₀.after y.updates) (y.applying.flatMap Prod.snd)) :
    VisibleInv i m₀ calls (e.set i y) where
  warmed := by rw [Mirrors.set_inst_self]; exact hwarm
  alone := by rw [Mirrors.set_inst_self]; exact halone
  map := by rw [Mirrors.set_inst_self]; exact hmap
  sorted := by
    rw [Mirrors.set_inst_self, hnew]
    refine List.pairwise_append.mpr ⟨?_, h.sorted, fun a ha b hb => ?_⟩
    · match new, hone with
      | [], _ => exact .nil
      | [u], _ => exact List.pairwise_singleton _ u
    · rw [hstamp a ha]
      exact h.stamped b hb
  stamped := by
    rw [Mirrors.set_inst_self, hnew]
    intro u hu
    rcases List.mem_append.mp hu with hu | hu
    · exact (hstamp u hu).le
    · exact h.stamped u hu
  replies := by
    rw [Mirrors.set_inst_self, hnew]
    intro h1 who n r hsuf hw c hc
    refine (h.replies h1 who n r hsuf hw c hc).later (begun_le who h1) fun u hu => ?_
    have hlen := hsuf.length_le
    rw [hstamp u hu]
    exact hlen

theorem Extends.set {new : List (Nat × List Op)} (hnew : y.updates = new ++ (e.inst i).updates)
    (hstamp : ∀ u ∈ new, u.1 = e.hist.length) : Extends i P e (e.set i y) := by
  refine ⟨⟨[], rfl, nofun⟩, ⟨new, ?_, fun u hu => (hstamp u hu).ge⟩⟩
  rw [Mirrors.set_inst_self, hnew]

/-- The steps of a thread do not disturb the others. -/
theorem Undisturbed.set {who : Who}
    (hcond : (∀ x ∈ (e.inst who.inst).applying, x.1 = who.thread) ∨ SameMap (e.inst who.inst) y)
    (hsub : ∀ x ∈ y.applying, x.1 = who.thread ∨ x ∈ (e.inst who.inst).applying) (thread : Nat)
    (hne : who ≠ ⟨thread, who.inst⟩) : Undisturbed who.inst thread e (e.set who.inst y) := by
  have hne' : who.thread ≠ thread := by
    rintro rfl
    exact hne rfl
  refine ⟨fun ⟨ops, hmem⟩ => ?_, fun hidle => ?_⟩ <;> rw [Mirrors.set_inst_self]
  · rcases hcond with hcond | hsame
    · exact absurd (hcond _ hmem).symm hne'
    · exact ⟨hsame.1, hsame.2.1, hsame.2.2.1⟩
  · intro x hx
    rcases hsub x hx with h | h
    · exact h ▸ hne'
    · exact hidle x h

/-- A report keeps the records of the updates. -/
theorem VisibleInv.log {who : Who} {m : Mark} (h : VisibleInv i m₀ calls e)
    (hm : ∀ n r, m = .returned n r → who.inst = i → ∀ c, calls who n = some c →
      c.SeesWhole m₀ (e.inst i).updates (begun who e.hist) e.hist.length r) :
    VisibleInv i m₀ calls (e.log who (some m)) where
  warmed := h.warmed
  alone := h.alone
  map := h.map
  sorted := h.sorted
  stamped u hu := (h.stamped u hu).trans (Nat.le_succ _)
  replies := by
    intro h1 who' n r hsuf hw c hc
    rcases List.suffix_cons_iff.mp hsuf with heq | hsuf
    · obtain ⟨hhead, rfl⟩ := List.cons.inj heq
      cases hhead
      exact hm n r rfl hw c hc
    · exact h.replies h1 who' n r hsuf hw c hc

theorem Extends.log {who : Who} {m : Mark} (hp : P who) : Extends i P e (e.log who (some m)) :=
  ⟨⟨[(who, m)], rfl, fun _ hx => List.mem_singleton.mp hx ▸ hp⟩, ⟨[], rfl, nofun⟩⟩

end Rules

/-! ## Procedures -/

namespace Cached

section Procedures

variable {i : Nat} {m₀ : BTreeStore} {calls : CachedCalls} {who : Who}
  {α β : Type}

/-- A call of the handle that began in `e₀` is between two updates of the map. -/
structure Ready (i : Nat) (who : Who) (e₀ e : Mirrors) : Prop where
  mine : who.inst = i
  since : Extends i (· ≠ who) e₀ e
  idle : ∀ x ∈ (e.inst i).applying, x.1 ≠ who.thread

variable {e e₀ e' : Mirrors}

theorem Ready.rely (h : Ready i who e₀ e) (hr : (visible i m₀ calls).rely who e e') :
    Ready i who e₀ e' :=
  ⟨h.mine, h.since.trans hr.1, (hr.2 h.mine).idle h.idle⟩

/-- The value was read from the map after the updates of some moment of the call. -/
def Saw (i : Nat) (m₀ : BTreeStore) (e₀ e : Mirrors) (f : BTreeStore → α) (v : α) : Prop :=
  ∃ l, (e₀.inst i).updates <:+ l ∧ l <:+ (e.inst i).updates ∧ v = f (m₀.after l)

variable {f : BTreeStore → α}

theorem Saw.later {P : Who → Prop} {v : α} (h : Saw i m₀ e₀ e f v) (he : Extends i P e e') :
    Saw i m₀ e₀ e' f v := by
  obtain ⟨l, hl, hl', hv⟩ := h
  exact ⟨l, hl, hl'.trans he.suffix, hv⟩

/-- The other threads are not inside a commit when the map is accessed. -/
theorem Ready.none_applying {a : MirrorAct β} (h : Ready i who e₀ e) (ht : a.touches = true)
    (hcond : Undivided i who a e) : (e.inst i).applying = [] := by
  refine List.eq_nil_iff_forall_not_mem.mpr fun x hx => h.idle x hx ?_
  exact hcond h.mine ht x hx

variable {y : Mirror}

theorem quiet_step (h : Ready i who e₀ e) (hi : VisibleInv i m₀ calls e)
    (hsame : SameMap (e.inst i) y) : VisibleInv i m₀ calls (e.set i y) ∧
      (visible i m₀ calls).guar who e (e.set i y) ∧ Ready i who e₀ (e.set i y) := by
  obtain ⟨rfl, hsince, hidle⟩ := h
  have hnew : y.updates = [] ++ (e.inst who.inst).updates := hsame.2.2.1
  refine ⟨VisibleInv.set hi ?_ ?_ hnew (Nat.zero_le 1) nofun ?_,
    ⟨.set hnew nofun, Undisturbed.set (.inr hsame)
      fun x hx => .inr (hsame.2.1 ▸ hx)⟩, rfl, hsince.trans (.set hnew nofun), ?_⟩
  · rw [hsame.2.2.2]
    exact hi.warmed
  · rw [hsame.2.1]
    exact hi.alone
  · rw [hsame.1, hsame.2.1, hsame.2.2.1]
    exact hi.map
  · rw [Mirrors.set_inst_self, hsame.2.1]
    exact hidle

theorem write_step (op : Op) (h : Ready i who e₀ e) (hi : VisibleInv i m₀ calls e)
    (hcond : ∀ x ∈ (e.inst i).applying, x.1 = who.thread)
    (hy : y = (e.inst i).update e.hist.length (Plain.apply (e.inst i).map op) op) :
    VisibleInv i m₀ calls (e.set i y) ∧ (visible i m₀ calls).guar who e (e.set i y) ∧
      Ready i who e₀ (e.set i y) := by
  subst hy
  obtain ⟨rfl, hsince, hidle⟩ := h
  have hnone : (e.inst who.inst).applying = [] :=
    List.eq_nil_iff_forall_not_mem.mpr fun x hx => hidle x hx (hcond x hx)
  have hnew : ((e.inst who.inst).update e.hist.length
      (Plain.apply (e.inst who.inst).map op) op).updates =
      [(e.hist.length, [op])] ++ (e.inst who.inst).updates := rfl
  have hstamp : ∀ u ∈ [(e.hist.length, [op])], u.1 = e.hist.length := by simp
  refine ⟨VisibleInv.set hi hi.warmed hi.alone hnew (Nat.le_refl 1) hstamp ?_,
    ⟨.set hnew hstamp, Undisturbed.set (.inl hcond) fun x hx => .inr hx⟩,
    rfl, hsince.trans (.set hnew hstamp), ?_⟩
  · rw [hnew]
    simp only [Mirror.update, hnone, List.flatMap_nil, hi.map]
    rfl
  · rw [Mirrors.set_inst_self]
    exact hidle

theorem direct_step {a : MirrorAct β} {c : Choice} {r : β} (ha : a.direct = true)
    (h : Ready i who e₀ e) (hi : VisibleInv i m₀ calls e)
    (hx : Mirror.exec who.thread e.hist.length c a (e.inst i) = some (r, y))
    (hcond : Undivided i who a e) : VisibleInv i m₀ calls (e.set i y) ∧
      (visible i m₀ calls).guar who e (e.set i y) ∧ Ready i who e₀ (e.set i y) := by
  cases a with
  | mapPut key value =>
    cases hx
    exact write_step (key, some value) h hi (hcond h.mine rfl) rfl
  | mapDelete key =>
    cases hx
    exact write_step (key, none) h hi (hcond h.mine rfl) rfl
  | mapGet | mapHas | mapGets | state | poison | observe =>
    cases hx
    exact quiet_step h hi ⟨rfl, rfl, rfl, rfl⟩
  | _ => cases ha

theorem direct_secure {p : CachedProg α} (hp : Direct p) (h : Ready i who e₀ e) :
    Secure (visible i m₀ calls) (Undivided i) who p (fun _ e' => Ready i who e₀ e') e := by
  obtain rfl := h.mine
  induction p generalizing e with
  | ret a => exact .ret fun e' hr _ => h.rely hr
  | act a k ih =>
    cases a with
    | core a => exact .coreAct fun e' r hr _ => ih r (hp.2 r) (h.rely hr)
    | ext b =>
      refine .act fun e' c r y hr hi hx hcond => ?_
      obtain ⟨hi', hg, h'⟩ := direct_step hp.1 (h.rely hr) hi hx hcond
      have hrank : b.rank ≤ 1 := b.rank_of_direct hp.1
      rw [mark?_of_rank (hrank.trans (Nat.le_succ 1)), Mirrors.log_none]
      exact ⟨hi', hg, ih r (hp.2 r) h'⟩

variable {a : MirrorAct α}

/-- One action, and what its result says from then on. -/
theorem Holds.direct {Q : α → Mirrors → Prop} (ha : a.direct = true) (h : Ready i who e₀ e)
    (hQ : ∀ {e' c r y e''}, Ready i who e₀ e' → VisibleInv i m₀ calls e' →
      Undivided i who a e' →
      Mirror.exec who.thread e'.hist.length c a (e'.inst i) = some (r, y) →
      Extends i (· ≠ who) (e'.set i y) e'' → Q r e'') :
    Holds (visible i m₀ calls) (Undivided i) who (CachedIo.act a)
      (fun r e' => Ready i who e₀ e' ∧ ∃ v, r = .ok v ∧ Q v e') e := by
  obtain rfl := h.mine
  have hrank : a.rank ≤ 1 := a.rank_of_direct ha
  refine .act (mark?_of_rank (hrank.trans (Nat.le_succ 1))) fun e' c r y hr hi hx hcond => ?_
  have hready := h.rely hr
  obtain ⟨hi', hg, h'⟩ := direct_step ha hready hi hx hcond
  exact ⟨hi', hg, fun e'' hr' _ => ⟨h'.rely hr', r, rfl, hQ hready hi hcond hx hr'.1⟩⟩

theorem Holds.reading (ha : a.direct = true) (ht : a.touches = true)
    (hx : ∀ {thread now c x r y}, Mirror.exec thread now c a x = some (r, y) →
      y = x ∧ r = f x.map) (h : Ready i who e₀ e) :
    Holds (visible i m₀ calls) (Undivided i) who (CachedIo.act a)
      (fun r e' => Ready i who e₀ e' ∧ ∃ v, r = .ok v ∧ Saw i m₀ e₀ e' f v) e := by
  refine .direct ha h fun hready hi hcond hex hext => ?_
  obtain ⟨rfl, rfl⟩ := hx hex
  rw [Mirrors.set_self] at hext
  refine Saw.later ⟨_, hready.since.suffix, List.suffix_rfl, ?_⟩ hext
  rw [hi.map, hready.none_applying ht hcond]
  rfl

/-- A commit has applied some operations and has more to come. -/
structure Amid (i : Nat) (who : Who) (done : List Op) (e₀ e : Mirrors) : Prop where
  mine : who.inst = i
  since : Extends i (· ≠ who) e₀ e
  place : (done = [] ∧ ∀ x ∈ (e.inst i).applying, x.1 ≠ who.thread) ∨
    (e.inst i).applying = [(who.thread, done)]

variable {done : List Op}

theorem Amid.rely (h : Amid i who done e₀ e) (hr : (visible i m₀ calls).rely who e e') :
    Amid i who done e₀ e' := by
  have hun := hr.2 h.mine
  refine ⟨h.mine, h.since.trans hr.1, h.place.imp (fun h => ⟨h.1, hun.idle h.2⟩) fun h => ?_⟩
  have hin : (who.thread, done) ∈ (e.inst i).applying := by
    rw [h]
    exact List.mem_singleton_self _
  rw [(hun.busy ⟨done, hin⟩).2.1, h]

theorem applyAll_concat (map : BTreeStore) (ops : List Op) (op : Op) :
    Plain.applyAll map (ops ++ [op]) = (Plain.applyAll map ops).apply op := by
  simp [Plain.applyAll]

/-- One round of the mirror loop of a commit. -/
theorem mapApply_amid {op : Op} {last : Bool} (h : Amid i who done e₀ e) :
    Holds (visible i m₀ calls) (Undivided i) who (CachedIo.act (.mapApply op last))
      (fun r e' => (∃ v, r = .ok v) ∧
        if last then Ready i who e₀ e' else Amid i who (done ++ [op]) e₀ e') e := by
  obtain rfl := h.mine
  refine .act rfl fun e' c r y hr hi hex hcond => ?_
  obtain ⟨-, hext, hat⟩ := h.rely hr
  -- the commit is the only one under way
  obtain ⟨hpartly, hothers, hops⟩ : (e'.inst who.inst).partly who.thread = done ∧
      ((e'.inst who.inst).applying.filter fun x => x.1 ≠ who.thread) = [] ∧
      (e'.inst who.inst).applying.flatMap Prod.snd = done := by
    rcases hat with ⟨rfl, hidle⟩ | hat
    · have hnil : (e'.inst who.inst).applying = [] := List.eq_nil_iff_forall_not_mem.mpr
        fun x hx => hidle x hx (hcond rfl rfl x hx)
      simp [Mirror.partly, hnil]
    · simp [Mirror.partly, hat]
  have hmap : Plain.apply (e'.inst who.inst).map op =
      Plain.applyAll (m₀.after (e'.inst who.inst).updates) (done ++ [op]) := by
    rw [applyAll_concat, hi.map, hops]
  simp only [Mirror.exec, hpartly, hothers, Option.some.injEq, Prod.mk.injEq, true_and] at hex
  obtain ⟨hwarm, hmap, happ, hupd⟩ : y.state.warmed = true ∧
      y.map = Plain.applyAll (m₀.after (e'.inst who.inst).updates) (done ++ [op]) ∧
      y.applying = (if last then [] else [(who.thread, done ++ [op])]) ∧
      y.updates = (if last then [(e'.hist.length, done ++ [op])] else []) ++
        (e'.inst who.inst).updates := by
    subst hex
    exact ⟨hi.warmed, hmap, rfl, by cases last <;> rfl⟩
  have hstamp : ∀ u ∈ (if last then [(e'.hist.length, done ++ [op])] else []),
      u.1 = e'.hist.length := by
    cases last <;> simp
  have hthread : ∀ x ∈ y.applying, x.1 = who.thread := by
    rw [happ]
    cases last <;> simp
  have hnext : Extends who.inst (· ≠ who) e₀ (e'.set who.inst y) :=
    hext.trans (.set hupd hstamp)
  refine ⟨VisibleInv.set hi hwarm ?_ hupd ?_ hstamp ?_, ⟨.set hupd hstamp,
    Undisturbed.set (.inl (hcond rfl rfl)) fun x hx => .inl (hthread x hx)⟩,
    fun e'' hr' _ => ⟨⟨r, rfl⟩, ?_⟩⟩
  · rw [happ]
    cases last <;> simp
  · cases last <;> simp
  · rw [hmap, hupd, happ]
    cases last with
    | true => rfl
    | false => simp
  · cases last with
    | true =>
      refine Ready.rely ⟨rfl, hnext, ?_⟩ hr'
      rw [Mirrors.set_inst_self, happ]
      exact nofun
    | false =>
      refine Amid.rely ⟨rfl, hnext, Or.inr ?_⟩ hr'
      rw [Mirrors.set_inst_self, happ]
      rfl

theorem applyStaged_amid (ops : List Op) (op : Op) (h : Amid i who done e₀ e) :
    Holds (visible i m₀ calls) (Undivided i) who (CachedTx.applyStaged (op :: ops))
      (fun _ e' => Ready i who e₀ e') e := by
  induction ops generalizing op done e with
  | nil =>
    refine .bind ((mapApply_amid h).mono fun r e' _ ⟨⟨v, hr⟩, he⟩ => ?_)
    subst hr
    exact .pure fun e'' hr _ => Ready.rely he hr
  | cons op' ops ih =>
    refine .bind ((mapApply_amid h).mono fun r e' _ ⟨⟨v, hr⟩, he⟩ => ?_)
    subst hr
    exact ih op' he

/-! ### The calls of a clone -/

/-- The procedure keeps to the rules and leaves no commit under way. -/
def Keeps (i : Nat) (m₀ : BTreeStore) (calls : CachedCalls) (who : Who)
    (p : CachedIo α) : Prop :=
  ∀ e₀ e, Ready i who e₀ e →
    Holds (visible i m₀ calls) (Undivided i) who p (fun _ e' => Ready i who e₀ e') e

theorem Keeps.direct {p : CachedIo α} (hp : Direct p) : Keeps i m₀ calls who p :=
  fun _ _ h => direct_secure hp h

theorem Keeps.bind {p : CachedIo α} {f : α → CachedIo β} (hp : Keeps i m₀ calls who p)
    (hf : ∀ a, Keeps i m₀ calls who (f a)) : Keeps i m₀ calls who (p >>= f) := by
  intro e₀ e h
  refine .bind ((hp e₀ e h).mono fun r e' _ he => ?_)
  cases r with
  | ok a => exact hf a e₀ e' he
  | error err => exact he

theorem Ready.here (h : Ready i who e₀ e) : Ready i who e e :=
  ⟨h.mine, .refl _ e, h.idle⟩

theorem Ready.trans (h : Ready i who e₀ e) (h' : Ready i who e e') : Ready i who e₀ e' :=
  ⟨h.mine, h.since.trans h'.since, h'.idle⟩

variable {cx : Ctx}

theorem commit_keeps (t : CachedTx) : Keeps i m₀ calls who (CachedTx.commit cx t) := by
  refine .bind (.direct (writeThrough_direct _)) fun _ => .bind ?_ fun _ =>
    .direct syncAfterWrite_direct
  cases t.staged.toList with
  | nil => exact .direct (.ret _)
  | cons op ops =>
    exact fun e₀ e h => applyStaged_amid ops op ⟨h.mine, h.since, Or.inl ⟨rfl, h.idle⟩⟩

/-! ### Reads -/

def Seeing (i : Nat) (m₀ : BTreeStore) (calls : CachedCalls) (who : Who)
    (f : BTreeStore → α) (p : CachedIo α) : Prop :=
  ∀ e₀ e, Ready i who e₀ e → Holds (visible i m₀ calls) (Undivided i) who p
    (fun r e' => Ready i who e₀ e' ∧ ∀ v, r = .ok v → Saw i m₀ e₀ e' f v) e

/-- The state of the mirror says that it is complete. -/
theorem warmed_here (h : Ready i who e₀ e) :
    Holds (visible i m₀ calls) (Undivided i) who (CachedIo.act .state)
      (fun r e' => Ready i who e₀ e' ∧ ∃ st : CachedState, r = .ok st ∧ st.warmed = true) e :=
  Holds.direct rfl h fun _ hi _ hx _ => by cases hx; exact hi.warmed

theorem Seeing.after {p : CachedIo β} {k : β → CachedIo α} (hp : Keeps i m₀ calls who p)
    (hk : ∀ b, Seeing i m₀ calls who f (k b)) : Seeing i m₀ calls who f (p >>= k) := by
  intro e₀ e h
  refine .bind ((hp e₀ e h).mono fun r e' _ h' => ?_)
  cases r with
  | error err => exact ⟨h', nofun⟩
  | ok b => exact hk b e₀ e' h'

/-- What was read is returned, at once or because the mirror is complete. -/
theorem Seeing.read {k : α → CachedIo α} (ha : a.direct = true) (ht : a.touches = true)
    (hx : ∀ {thread now c x r y}, Mirror.exec thread now c a x = some (r, y) → y = x ∧ r = f x.map)
    (hk : ∀ v, k v = Pure.pure v ∨
      ∃ g, k v = (do if (← CachedIo.act .state).warmed then Pure.pure v else g)) :
    Seeing i m₀ calls who f (CachedIo.act a >>= k) := by
  intro e₀ e h
  refine .bind ((Holds.reading ha ht hx h).mono fun r e1 _ ⟨h1, v, hr, hsaw⟩ => ?_)
  subst hr
  rcases hk v with hv | ⟨g, hv⟩ <;> simp only [hv]
  · refine .pure fun e2 hr _ => ⟨h1.rely hr, fun v' hv' => ?_⟩
    cases hv'
    exact hsaw.later hr.1
  · refine .bind ((warmed_here h1.here).mono fun r e2 _ ⟨h2, st, hr, hst⟩ => ?_)
    subst hr
    simp only [hst, ite_true]
    refine .pure fun e3 hr _ => ⟨(h1.trans h2).rely hr, fun v' hv' => ?_⟩
    cases hv'
    exact (hsaw.later h2.since).later hr.1

theorem getBytes_seeing (key : Key) :
    Seeing i m₀ calls who (fun map => map.get? key) (getBytes cx key) := by
  refine .after (.direct rejectIfPoisoned_direct) fun _ => .read rfl rfl
    (fun hx => by cases hx; exact ⟨rfl, rfl⟩) fun v => ?_
  cases v with
  | some v => exact .inl rfl
  | none => exact .inr ⟨_, rfl⟩

theorem has_seeing (key : Key) :
    Seeing i m₀ calls who (fun map => (map.get? key).isSome) (has cx key) := by
  refine .after (.direct rejectIfPoisoned_direct) fun _ => .read rfl rfl
    (fun hx => by cases hx; exact ⟨rfl, rfl⟩) fun v => ?_
  cases v with
  | true => exact .inl rfl
  | false => exact .inr ⟨_, rfl⟩

theorem getsBytes_seeing (limit : Option Nat) (d : Direction) (c : Cursor) :
    Seeing i m₀ calls who (fun map => map.getsBytes limit d c) (getsBytes cx limit d c) := by
  refine .after (.direct rejectIfPoisoned_direct) fun _ e₀ e h => ?_
  refine .bind ((warmed_here h).mono fun r e1 _ ⟨h1, st, hr, hst⟩ => ?_)
  subst hr
  simp only [hst, ite_true]
  refine (Holds.reading (f := fun map => map.getsBytes limit d c) rfl rfl
    (fun hx => by cases hx; exact ⟨rfl, rfl⟩) h1).mono fun r e2 _ ⟨h2, v, hr, hsaw⟩ => ⟨h2, ?_⟩
  rintro v' rfl
  cases hr
  exact hsaw

/-! ### Clients -/

/-- The reply of a call, given at the end of it. -/
def Told (i : Nat) (m₀ : BTreeStore) (who : Who) (c : CachedCall) (e₀ : Mirrors) (r : Reply)
    (e : Mirrors) : Prop :=
  Ready i who e₀ e ∧ ∃ l, (e₀.inst i).updates <:+ l ∧ l <:+ (e.inst i).updates ∧
    c.Sees (m₀.after l) r

variable {c : CachedCall}

theorem Told.rely {r : Reply} (h : Told i m₀ who c e₀ r e)
    (hr : (visible i m₀ calls).rely who e e') : Told i m₀ who c e₀ r e' := by
  obtain ⟨hready, l, hl, hl', hsees⟩ := h
  exact ⟨hready.rely hr, l, hl, hl'.trans hr.1.suffix, hsees⟩

/-- A call that does not update the map, with a reply that shows any map. -/
theorem told_of_direct (hc : c.direct = true) (hsees : ∀ map r, c.Sees map r)
    (txs : CachedTxTable) (h : Ready i who e₀ e) :
    Secure (visible i m₀ calls) (Undivided i) who (c.run cx txs)
      (fun x e' => Told i m₀ who c e₀ x.1 e') e :=
  (direct_secure (CachedCall.run_direct hc) h).mono
    fun _ _ _ he => ⟨he, _, List.suffix_rfl, he.since.suffix, hsees _ _⟩

theorem told_of_seeing {p : CachedIo α} {g : Res α → Reply × CachedTxTable}
    (hp : Seeing i m₀ calls who f p) (hok : ∀ map, c.Sees map (g (.ok (f map))).1)
    (herr : ∀ map err, c.Sees map (g (.error err)).1) (h : Ready i who e₀ e) :
    Secure (visible i m₀ calls) (Undivided i) who (Prog.bind p fun r => .ret (g r))
      (fun x e' => Told i m₀ who c e₀ x.1 e') e := by
  refine .bind (.mono (hp e₀ e h) fun r e' _ ⟨he, hsaw⟩ => .ret fun e'' hr _ => ?_)
  refine Told.rely ⟨he, ?_⟩ hr
  cases r with
  | error err => exact ⟨_, List.suffix_rfl, he.since.suffix, herr _ err⟩
  | ok v =>
    obtain ⟨l, hl, hl', rfl⟩ := hsaw v rfl
    exact ⟨l, hl, hl', hok _⟩

theorem call_told (hc : c.steady = true) (txs : CachedTxTable) (h : Ready i who e₀ e) :
    Secure (visible i m₀ calls) (Undivided i) who (c.run cx txs)
      (fun x e' => Told i m₀ who c e₀ x.1 e') e := by
  cases c with
  | get key => exact told_of_seeing (getBytes_seeing key) (by intros; rfl) (by intros; trivial) h
  | has key => exact told_of_seeing (has_seeing key) (by intros; rfl) (by intros; trivial) h
  | gets limit d c =>
    exact told_of_seeing (getsBytes_seeing limit d c) (by intros; rfl) (by intros; trivial) h
  | txCommit t =>
    refine .bind (.mono (commit_keeps _ e₀ e h) fun r e' _ he => .ret fun e'' hr _ => ?_)
    have he' := Ready.rely he hr
    exact ⟨he', _, List.suffix_rfl, he'.since.suffix, trivial⟩
  | warm | warmStep | refresh | getChecked | hasChecked | getsChecked => cases hc
  | _ => exact told_of_direct rfl (by intros; trivial) txs h

theorem guar_log {m : Mark} : (visible i m₀ calls).guar who e (e.log who (some m)) :=
  ⟨.log rfl, fun _ _ => ⟨fun _ => ⟨rfl, rfl, rfl⟩, id⟩⟩

theorem client_secure (hw : who.inst = i) (cs : List CachedCall) (n : Nat) (txs : CachedTxTable)
    (hcs : ∀ c ∈ cs, c.steady = true) (hcalls : ∀ k, calls who (n + k) = cs[k]?)
    (hidle : ∀ x ∈ (e.inst i).applying, x.1 ≠ who.thread) :
    Secure (visible i m₀ calls) (Undivided i) who (cachedClient cx cs n txs) (fun _ _ => True) e := by
  induction cs generalizing n txs e with
  | nil => exact .ret fun _ _ _ => trivial
  | cons c cs ih =>
    refine .act fun e1 _ _ y hr hi hx _ => ?_
    cases hx
    rw [Mirrors.set_self]
    refine ⟨hi.log nofun, guar_log, .bind ?_⟩
    have hready : Ready i who (e1.log who (some (.invoked n))) (e1.log who (some (.invoked n))) :=
      ⟨hw, .refl _ _, (hr.2 hw).idle hidle⟩
    refine (call_told (hcs c List.mem_cons_self) txs hready).mono fun x e2 _ htold => ?_
    refine .act fun e3 _ _ y hr3 hi3 hx _ => ?_
    cases hx
    rw [Mirrors.set_self]
    have htold3 := htold.rely hr3
    refine ⟨hi3.log fun n' r hm hw' c' hc' => ?_, guar_log, ih (n + 1) x.2 ?_ ?_ htold3.1.idle⟩
    · cases hm
      have hc : calls who n = some c := hcalls 0
      obtain rfl := Option.some.inj (hc.symm.trans hc')
      obtain ⟨⟨-, hext, -⟩, l, hl, hl', hsees⟩ := htold3
      obtain ⟨⟨t, ht, hne⟩, new, hnew, hstamp⟩ := hext
      -- the call began with the newest report of this thread
      have hbegun : begun who e3.hist = e1.hist.length := by
        rw [ht, begun, past_append hne]
        simp [Mirrors.log, past]
      refine ⟨l, ?_, ?_, hsees⟩
      · rw [hbegun, hnew, before_append, before_of_late hstamp]
        exact (before_suffix hi.sorted).trans hl
      · rw [before_of_early hi3.stamped]
        exact hl'
    · exact fun c' hc' => hcs c' (List.mem_cons_of_mem _ hc')
    · intro k
      rw [show n + 1 + k = n + (k + 1) by omega]
      exact hcalls (k + 1)

/-- What happens on the mirrors of other handles does not matter. -/
theorem elsewhere (hne : who.inst ≠ i) (p : CachedProg α) (e : Mirrors) :
    Secure (visible i m₀ calls) (Undivided i) who p (fun _ _ => True) e := by
  induction p generalizing e with
  | ret a => exact .ret fun _ _ _ => trivial
  | act a k ih =>
    cases a with
    | core a => exact .coreAct fun e' r _ _ => ih r e'
    | ext b =>
      refine .act fun e' c r y hr hi hx _ => ?_
      have hinst : (e'.set who.inst y).inst i = e'.inst i := Mirrors.set_inst_ne _ _ _ hne.symm
      have hset : VisibleInv i m₀ calls (e'.set who.inst y) := by
        obtain ⟨h1, h2, h3, h4, h5, h6⟩ := hi
        rw [← hinst] at h1 h2 h3 h4 h5 h6
        exact ⟨h1, h2, h3, h4, h5, h6⟩
      have hun : ∀ thread, Undisturbed i thread e' (e'.set who.inst y) := fun thread =>
        ⟨fun _ => by rw [hinst]; exact ⟨rfl, rfl, rfl⟩, by rw [hinst]; exact id⟩
      have hext : Extends i (· = who) e' (e'.set who.inst y) :=
        ⟨⟨[], rfl, nofun⟩, ⟨[], by rw [hinst]; rfl, nofun⟩⟩
      cases b.mark? with
      | none => exact ⟨hset, ⟨hext, fun thread _ => hun thread⟩, ih r _⟩
      | some m =>
        refine ⟨hset.log fun _ _ _ hw => absurd hw hne, ⟨hext.trans (.log rfl),
          fun thread _ => (hun thread).trans ⟨fun _ => ⟨rfl, rfl, rfl⟩, id⟩⟩, ih r _⟩

end Procedures

end Cached

/-- Commits on a warmed mirror, interleaved in any way with reads, writes and other commits
on clones of the handle, and with anything else: if no access to the map falls between the
first and the last mirror update of another thread's commit, then every read saw the map
after whole updates. -/
theorem commits_visible_at_once (i : Nat) (jobs : List CachedJob)
    (hjobs : ∀ job ∈ jobs, job.inst = i → job.Steady) (w : World) (e : Mirrors)
    (hwarm : (e.inst i).state.warmed = true) (sched : List (Nat × Choice))
    (P' : cachedEngine.Pool)
    (hrun : cachedEngine.runPool sched ⟨(w, e.fresh), cachedSpawn jobs⟩ = some P')
    (hwhole : cachedEngine.RunMeets (MirrorCond.step (Undivided i)) sched
      ⟨(w, e.fresh), cachedSpawn jobs⟩) :
    ∀ h who n r, ((who, .returned n r) :: h) <:+ P'.state.2.hist → who.inst = i →
      ∀ c, callOf jobs who n = some c →
        c.SeesWhole (e.inst i).map (P'.state.2.inst i).updates (begun who h) h.length r := by
  have hinv : VisibleInv i (e.inst i).map (callOf jobs) P'.state.2 := by
    refine Cached.pool_inv (O := visible i (e.inst i).map (callOf jobs)) (C := Undivided i)
      (visible_compatible i _ _) ?_ ?_ hrun hwhole
    · refine ⟨hwarm, Nat.zero_le 1, rfl, List.Pairwise.nil, nofun, fun h who n r hsuf => ?_⟩
      cases List.suffix_nil.mp hsuf
    · intro j job hj
      by_cases hi : job.inst = i
      · cases job with
        | plain job =>
          exact .mono (.lift _) fun _ _ _ _ => trivial
        | clone i' cx cs =>
          refine .bind (.mono (Cached.client_secure hi cs 0 CachedTxTable.none
            (hjobs _ (List.mem_of_getElem? hj) hi) (fun k => ?_) nofun) fun _ _ _ _ =>
              .ret fun _ _ _ => trivial)
          simp [callOf, hj]
      · exact Cached.elsewhere hi _ _
  exact hinv.replies

/-! ## A commit of two keys -/

/-- The test for `Undivided`. -/
def undividedTest (i : Nat) {β : Type} (who : Who) (a : Plus Act MirrorAct β) (s : World × Mirrors) :
    Bool :=
  match a with
  | .core _ => true
  | .ext b => !(decide (who.inst = i) && b.touches) ||
    (s.2.inst i).applying.all fun x => x.1 = who.thread

theorem undivided_of_test {i : Nat} {β : Type} (who : Who) (a : Plus Act MirrorAct β)
    (s : World × Mirrors) (r : β) (s' : World × Mirrors) (h : undividedTest i who a s = true) :
    MirrorCond.step (Undivided i) who a s r s' := by
  cases a with
  | core a => trivial
  | ext b =>
    intro hw ht x hx
    simp only [undividedTest, hw, ht, decide_true, Bool.and_self, Bool.not_true, Bool.false_or,
      List.all_eq_true, decide_eq_true_eq] at h
    exact h x hx

/-- An empty prefix, opened as a warmed cached store. -/
def openedWarm : Option (World × Mirrors) :=
  (cachedEngine.run ⟨0, 0⟩ (cachedSession sampleBuilder [] .eager []) faultless
    (World.start, Mirrors.start)).map fun x => x.2.2

/-- One clone commits two keys, another reads the whole range. -/
def commitAndScan : List CachedJob :=
  [.clone 0 Cached.firstCtx [.txPut 0 "a" [1], .txPut 0 "b" [1], .txCommit 0],
    .clone 0 Cached.firstCtx [.gets none .next (none, none)]]

def turns (l : List (Nat × Nat)) : List (Nat × Choice) :=
  l.flatMap fun x => List.replicate x.2 (x.1, ⟨none, true⟩)

def commitPool (s : World × Mirrors) : cachedEngine.Pool :=
  ⟨(s.1, s.2.fresh), cachedSpawn commitAndScan⟩

set_option maxRecDepth 100000 in
theorem commits_visible_at_once_after : ∃ s P', openedWarm = some s ∧
    cachedEngine.runPool (turns [(0, 35), (1, 5)]) (commitPool s) = some P' ∧
    ∀ h n r, ((⟨1, 0⟩, .returned n r) :: h) <:+ P'.state.2.hist →
      ∀ c, callOf commitAndScan ⟨1, 0⟩ n = some c →
        c.SeesWhole (s.2.inst 0).map (P'.state.2.inst 0).updates (begun ⟨1, 0⟩ h) h.length r := by
  have heval : openedWarm.map (fun s => ((s.2.inst 0).state.warmed,
      (cachedEngine.runPool (turns [(0, 35), (1, 5)]) (commitPool s)).isSome,
      cachedEngine.passes (undividedTest 0) (turns [(0, 35), (1, 5)]) (commitPool s))) =
      some (true, true, true) := by decide +kernel
  obtain ⟨s, hs, heval⟩ := Option.map_eq_some_iff.mp heval
  simp only [Prod.mk.injEq] at heval
  obtain ⟨P', hP'⟩ := Option.isSome_iff_exists.mp heval.2.1
  have hall := commits_visible_at_once 0 commitAndScan (by simp [commitAndScan, CachedJob.Steady,
    CachedCall.steady]) s.1 s.2 heval.1 _ P' hP' (.of_passes undivided_of_test heval.2.2)
  exact ⟨s, P', hs, hP', fun h n r hsuf c hc => hall h ⟨1, 0⟩ n r hsuf rfl c hc⟩

set_option maxRecDepth 100000 in
/-- The scan falls between the two mirror updates of the commit. -/
theorem commit_seen_in_part :
    (openedWarm.bind fun s => cachedEngine.runPool (turns [(0, 31), (1, 5), (0, 4)])
      (commitPool s)).map (fun P => (P.state.2.replies ⟨0, 0⟩, P.state.2.replies ⟨1, 0⟩)) =
      some ([.done (.ok ()), .done (.ok ()), .done (.ok ())], [.rows (.ok [("a", [1])])]) := by
  decide +kernel

end OxKv
