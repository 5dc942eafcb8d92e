import OxKv.Mirror.Visible

/-!
How long a mirror stays poisoned.

A write that was fenced poisons the mirror. Every successful write, commit and scan
observes a manifest at its end and clears the poison, also if its durable part was done
before the takeover. `poison_sticks` is about the runs in which that does not happen.
-/

namespace OxKv

/-! ## Fenced writes and the reads after them -/

namespace CachedCall

def reads : CachedCall → Bool
  | .get _ | .has _ | .gets _ _ _ => true
  | _ => false

def writes : CachedCall → Bool
  | .put _ _ | .set _ _ | .delete _ | .txCommit _ => true
  | _ => false

end CachedCall

def StoreError.isFenced : StoreError → Bool
  | .fenced _ => true
  | _ => false

def Reply.isFenced (r : Reply) : Bool := r.error?.any StoreError.isFenced

/-- The call that a thread is in. -/
def current (who : Who) : Reports → Option Nat
  | [] => none
  | (who', m) :: h =>
    if who' = who then
      match m with
      | .invoked n => some n
      | .returned _ _ => none
    else current who h

section Owing

variable (i : Nat) (calls : CachedCalls)

/-- A write of the handle was fenced, and no refresh has succeeded since. -/
def Owed : Reports → Prop
  | [] => False
  | (_, .invoked _) :: h => Owed h
  | (who, .returned n r) :: h =>
    if who.inst = i ∧ (calls who n).any CachedCall.writes ∧ r.isFenced then True
    else if who.inst = i ∧ (calls who n).any CachedCall.refreshes ∧ r.error? = none then False
    else Owed h

/-- The thread is in a call that may refresh the mirror. -/
def Refreshing (who : Who) (h : Reports) : Prop :=
  ∃ n, current who h = some n ∧ (calls who n).any CachedCall.refreshes = true

/-- The condition on a run: calls that may refresh do not overlap other calls; a manifest
is observed outside of them only while the mirror is not poisoned; and a checked read does
not fail after it has refreshed the mirror. -/
def Serial : MirrorCond := fun who a e =>
  who.inst = i →
    match a with
    | .mark (.invoked n) => ∀ who', who'.inst = i → who' ≠ who → current who' e.hist ≠ none →
        ¬ Refreshing calls who' e.hist ∧ (calls who n).any CachedCall.refreshes = false
    | .mark (.returned n r) => (∃ c, calls who n = some c ∧ c.refreshes = true ∧ c ≠ .refresh) →
        r.error? ≠ none → Owed i calls e.hist → (e.inst i).state.poisoned ≠ none
    | .observe _ | .scanFinish _ =>
      (e.inst i).state.poisoned = none ∨ Refreshing calls who e.hist
    | _ => True

end Owing

/-! ## Rely and guarantee -/

section Rules

variable {i : Nat} {calls : CachedCalls} {who : Who}

theorem current_append {t h : Reports} (ht : ∀ x ∈ t, x.1 ≠ who) :
    current who (t ++ h) = current who h := by
  induction t with
  | nil => rfl
  | cons x t ih =>
    have hne : x.1 ≠ who := ht x List.mem_cons_self
    simp only [List.cons_append, current, if_neg hne]
    exact ih fun y hy => ht y (List.mem_cons_of_mem _ hy)

theorem owed_append {t h : Reports} (ht : ∀ x ∈ t, x.1.inst ≠ i) :
    Owed i calls (t ++ h) ↔ Owed i calls h := by
  induction t with
  | nil => exact .rfl
  | cons x t ih =>
    obtain ⟨who', m⟩ := x
    have hne : who'.inst ≠ i := ht _ List.mem_cons_self
    have ih' := ih fun y hy => ht y (List.mem_cons_of_mem _ hy)
    cases m with
    | invoked n => exact ih'
    | returned n r => simpa [Owed, hne] using ih'

abbrev Poisoned (i : Nat) (e : Mirrors) : Prop := (e.inst i).state.poisoned ≠ none

variable (i calls) in
/-- What a thread sees of the steps of others: while it may refresh, it is alone; while it
is in another call, the poison stays. -/
structure View (who : Who) (e e' : Mirrors) : Prop where
  hist : ∃ t, e'.hist = t ++ e.hist ∧ (∀ x ∈ t, x.1 ≠ who) ∧
    (who.inst = i → Refreshing calls who e.hist → ∀ x ∈ t, x.1.inst ≠ i)
  alone : who.inst = i → Refreshing calls who e.hist → (e'.inst i).state = (e.inst i).state
  poison : who.inst = i → current who e.hist ≠ none → ¬ Refreshing calls who e.hist →
    Poisoned i e → Poisoned i e'

variable {e e' : Mirrors}

theorem View.current (h : View i calls who e e') : current who e'.hist = current who e.hist := by
  obtain ⟨t, ht, hne, -⟩ := h.hist
  rw [ht, current_append hne]

theorem View.past (h : View i calls who e e') : past who e'.hist = past who e.hist := by
  obtain ⟨t, ht, hne, -⟩ := h.hist
  rw [ht, past_append hne]

theorem View.refreshing (h : View i calls who e e') :
    Refreshing calls who e'.hist ↔ Refreshing calls who e.hist := by
  unfold Refreshing
  rw [h.current]

theorem View.refl (e : Mirrors) : View i calls who e e :=
  ⟨⟨[], rfl, nofun, fun _ _ => nofun⟩, fun _ _ => rfl, fun _ _ _ h => h⟩

theorem View.trans {e1 e2 e3 : Mirrors} (h : View i calls who e1 e2)
    (h' : View i calls who e2 e3) : View i calls who e1 e3 := by
  obtain ⟨t, ht, hne, halone⟩ := h.hist
  obtain ⟨t', ht', hne', halone'⟩ := h'.hist
  refine ⟨⟨t' ++ t, by rw [ht', ht, List.append_assoc], fun x hx => ?_, fun hw hr x hx => ?_⟩,
    fun hw hr => ?_, fun hw hc hr hp => ?_⟩
  · exact (List.mem_append.mp hx).elim (hne' x) (hne x)
  · exact (List.mem_append.mp hx).elim (halone' hw (h.refreshing.mpr hr) x) (halone hw hr x)
  · rw [h'.alone hw (h.refreshing.mpr hr), h.alone hw hr]
  · exact h'.poison hw (h.current ▸ hc) (fun hr' => hr (h.refreshing.mp hr')) (h.poison hw hc hr hp)

variable (i calls) in
structure StickyInv (e : Mirrors) : Prop where
  /-- while a thread is in a call, no other thread refreshes -/
  apart : ∀ who who', who.inst = i → who'.inst = i → who' ≠ who → current who e.hist ≠ none →
    ¬ Refreshing calls who' e.hist
  owed : (∀ who, who.inst = i → ¬ Refreshing calls who e.hist) → Owed i calls e.hist →
    Poisoned i e
  replies : ∀ h who n r, ((who, .returned n r) :: h) <:+ e.hist → who.inst = i →
    (calls who n).any CachedCall.reads → Owed i calls (past who h) → r.isFenced = true

variable (i calls) in
/-- The rules for the clones of one handle. -/
def sticky : Outer Who Mirrors where
  inv := StickyInv i calls
  rely := View i calls
  guar who e e' := ∀ who', who' ≠ who → View i calls who' e e'
  rely_refl _ e := View.refl e
  rely_trans _ _ _ _ h h' := h.trans h'
  guar_refl _ e := fun _ _ => View.refl e

variable {y : Mirror}

/-- An action on the mirror between two reports. -/
theorem StickyInv.set (h : StickyInv i calls e) (hw : who.inst = i)
    (hk : ¬ Refreshing calls who e.hist → Poisoned i e → y.state.poisoned ≠ none) :
    StickyInv i calls (e.set i y) where
  apart := h.apart
  owed hr ho := by
    unfold Poisoned
    rw [Mirrors.set_inst_self]
    exact hk (hr who hw) (h.owed hr ho)
  replies := h.replies

theorem guar_set (h : StickyInv i calls e) (hw : who.inst = i) (hc : current who e.hist ≠ none)
    (hk : ¬ Refreshing calls who e.hist → Poisoned i e → y.state.poisoned ≠ none) :
    (sticky i calls).guar who e (e.set i y) := by
  intro who' hne
  refine ⟨⟨[], rfl, nofun, fun _ _ => nofun⟩, fun hw' hr => ?_, fun hw' hc' _ hp => ?_⟩
  · exact absurd hr (h.apart who who' hw hw' hne hc)
  · unfold Poisoned
    rw [Mirrors.set_inst_self]
    exact hk (h.apart who' who hw' hw hne.symm hc') hp

theorem poisoned_kept {β : Type} {a : MirrorAct β} {thread now : Nat} {c : Choice} {x : Mirror}
    {r : β} (hx : Mirror.exec thread now c a x = some (r, y)) (hrank : a.rank = 0)
    (hp : x.state.poisoned ≠ none) : y.state.poisoned ≠ none := by
  cases a <;> first
    | (cases hrank; done)
    | (cases hx; exact hp)
    | (cases hx; exact nofun)
    | skip
  dsimp only [Mirror.exec] at hx
  split at hx
  · cases hx
  · cases hx
    exact hp

theorem Serial.observes {β : Type} {a : MirrorAct β} (h : Serial i calls who a e)
    (hw : who.inst = i) (hrank : a.rank = 1) :
    (e.inst i).state.poisoned = none ∨ Refreshing calls who e.hist := by
  cases a <;> first | exact h hw | cases hrank

/-! ### Reports -/

theorem current_log_invoked (e : Mirrors) (n : Nat) :
    current who (e.log who (some (.invoked n))).hist = some n := by
  simp [Mirrors.log, current]

theorem current_log_returned (e : Mirrors) (n : Nat) (r : Reply) :
    current who (e.log who (some (.returned n r))).hist = none := by
  simp [Mirrors.log, current]

theorem current_log_ne {who' : Who} (hne : who' ≠ who) (e : Mirrors) (m : Mark) :
    current who' (e.log who (some m)).hist = current who' e.hist := by
  simp [Mirrors.log, current, hne.symm]

theorem refreshing_log_ne {who' : Who} (hne : who' ≠ who) (e : Mirrors) (m : Mark) :
    Refreshing calls who' (e.log who (some m)).hist ↔ Refreshing calls who' e.hist := by
  unfold Refreshing
  rw [current_log_ne hne]

/-- A report, while no other thread is refreshing. -/
theorem guar_report {m : Mark}
    (h : ∀ who', who'.inst = i → who' ≠ who → ¬ Refreshing calls who' e.hist) :
    (sticky i calls).guar who e (e.log who (some m)) := by
  refine fun who' hne => ⟨⟨[(who, m)], rfl, fun x hx => ?_, fun hw' hr => ?_⟩, fun hw' hr => ?_,
    fun _ _ _ hp => hp⟩
  · rw [List.mem_singleton.mp hx]
    exact hne.symm
  · exact absurd hr (h who' hw' hne)
  · exact absurd hr (h who' hw' hne)

theorem StickyInv.replies_log {m : Mark} (hi : StickyInv i calls e)
    (hm : ∀ n r, m = .returned n r → who.inst = i → (calls who n).any CachedCall.reads = true →
      Owed i calls (past who e.hist) → r.isFenced = true) :
    ∀ h who' n r, ((who', .returned n r) :: h) <:+ (e.log who (some m)).hist → who'.inst = i →
      (calls who' n).any CachedCall.reads → Owed i calls (past who' h) → r.isFenced = true := by
  intro h who' n r hsuf
  rcases List.suffix_cons_iff.mp hsuf with heq | hsuf
  · obtain ⟨hhead, rfl⟩ := List.cons.inj heq
    cases hhead
    exact hm n r rfl
  · exact hi.replies h who' n r hsuf

theorem StickyInv.invoked {n : Nat} (hi : StickyInv i calls e) (hw : who.inst = i)
    (hidle : current who e.hist = none) (hcond : Serial i calls who (.mark (.invoked n)) e) :
    StickyInv i calls (e.log who (some (.invoked n))) ∧
      (∀ who', who'.inst = i → ¬ Refreshing calls who' e.hist) := by
  have hnone : ∀ who', who'.inst = i → ¬ Refreshing calls who' e.hist := by
    rintro who' hw' ⟨k, hk, hr⟩
    have hne : who' ≠ who := by
      rintro rfl
      rw [hidle] at hk
      cases hk
    exact (hcond hw who' hw' hne (by rw [hk]; exact nofun)).1 ⟨k, hk, hr⟩
  refine ⟨⟨fun who1 who2 hw1 hw2 hne hcur hr => ?_, fun _ ho => hi.owed hnone ho,
    hi.replies_log nofun⟩, hnone⟩
  by_cases h2 : who2 = who
  · subst h2
    rw [current_log_ne hne.symm] at hcur
    obtain ⟨k, hk, hr⟩ := hr
    rw [current_log_invoked] at hk
    cases hk
    have hno := (hcond hw who1 hw1 hne.symm hcur).2
    rw [hr] at hno
    cases hno
  · exact hnone who2 hw2 ((refreshing_log_ne h2 e _).mp hr)

theorem StickyInv.returned {c : CachedCall} {n : Nat} {r : Reply} (hi : StickyInv i calls e)
    (hw : who.inst = i) (hc : calls who n = some c) (hcur : current who e.hist = some n)
    (hread : c.reads = true → Owed i calls (past who e.hist) → r.isFenced = true)
    (hwrite : c.writes = true → r.isFenced = true → Poisoned i e)
    (hfail : c.refreshes = true → r.error? ≠ none → Owed i calls e.hist → Poisoned i e) :
    StickyInv i calls (e.log who (some (.returned n r))) := by
  have hstop : current who _ = none := current_log_returned e n r
  refine ⟨fun who1 who2 hw1 hw2 hne hcur' hr => ?_, fun hno ho => ?_,
    hi.replies_log fun n' r' hm hw' hreads hpast => ?_⟩
  · have h1 : who1 ≠ who := fun heq => hcur' (heq ▸ hstop)
    have h2 : who2 ≠ who := by
      rintro rfl
      obtain ⟨k, hk, -⟩ := hr
      rw [hstop] at hk
      cases hk
    rw [current_log_ne h1] at hcur'
    exact hi.apart who1 who2 hw1 hw2 hne hcur' ((refreshing_log_ne h2 e _).mp hr)
  · change (if who.inst = i ∧ (calls who n).any CachedCall.writes ∧ r.isFenced then True
      else if who.inst = i ∧ (calls who n).any CachedCall.refreshes ∧ r.error? = none then False
      else Owed i calls e.hist) at ho
    rw [hc] at ho
    split at ho
    · rename_i hfenced
      exact hwrite hfenced.2.1 hfenced.2.2
    · split at ho
      · exact ho.elim
      · rename_i hnot
        by_cases hr : c.refreshes = true
        · exact hfail hr (fun herr => hnot ⟨hw, hr, herr⟩) ho
        · refine hi.owed (fun who' hw' => ?_) ho
          by_cases heq : who' = who
          · subst heq
            rintro ⟨k, hk, hr'⟩
            obtain rfl := Option.some.inj (hcur.symm.trans hk)
            rw [hc] at hr'
            exact hr hr'
          · exact fun hr' => hno who' hw' ((refreshing_log_ne heq e _).mpr hr')
  · cases hm
    rw [hc] at hreads
    exact hread hreads hpast

/-- A report from another handle, or none. -/
theorem StickyInv.elsewhere {m : Mark} (hi : StickyInv i calls e) (hne : who.inst ≠ i) :
    StickyInv i calls (e.log who (some m)) := by
  have hother : ∀ who', who'.inst = i → who' ≠ who := by
    rintro who' hw' rfl
    exact hne hw'
  have hsame : ∀ who', who'.inst = i →
      (Refreshing calls who' (e.log who (some m)).hist ↔ Refreshing calls who' e.hist) :=
    fun who' hw' => refreshing_log_ne (hother who' hw') e m
  refine ⟨fun who1 who2 hw1 hw2 hne' hcur hr => ?_, fun hno ho => ?_,
    hi.replies_log fun _ _ _ hw => absurd hw hne⟩
  · rw [current_log_ne (hother who1 hw1)] at hcur
    exact hi.apart who1 who2 hw1 hw2 hne' hcur ((hsame who2 hw2).mp hr)
  · refine hi.owed (fun who' hw' hr => hno who' hw' ((hsame who' hw').mpr hr)) ?_
    exact (owed_append (t := [(who, m)]) fun x hx => by rw [List.mem_singleton.mp hx]; exact hne).mp ho

end Rules

/-! ## Procedures -/

namespace Cached

section Procedures

variable {i : Nat} {calls : CachedCalls} {who : Who} {α : Type}

variable (i calls who) in
/-- A thread is in its call number `n`, which it began after the reports `h₀`. -/
structure Within (n : Nat) (h₀ : Reports) (e : Mirrors) : Prop where
  mine : who.inst = i
  cur : current who e.hist = some n
  past : past who e.hist = h₀
  owed : Refreshing calls who e.hist → (Owed i calls e.hist ↔ Owed i calls h₀)

variable {h₀ : Reports} {e : Mirrors} {n : Nat}

section Within

variable (h : Within i calls who n h₀ e)

include h

theorem Within.view {e' : Mirrors} (hv : View i calls who e e') : Within i calls who n h₀ e' := by
  refine ⟨h.mine, hv.current.trans h.cur, hv.past.trans h.past, fun hr => ?_⟩
  obtain ⟨t, ht, -, halone⟩ := hv.hist
  have hr' := hv.refreshing.mp hr
  rw [ht, owed_append (halone h.mine hr')]
  exact h.owed hr'

theorem Within.ne_none : current who e.hist ≠ none := by
  rw [h.cur]
  exact nofun

/-- In either kind of call the others leave the poison. -/
theorem Within.poisoned {e' : Mirrors} (hv : View i calls who e e')
    (hp : Poisoned i e) : Poisoned i e' := by
  by_cases hr : Refreshing calls who e.hist
  · rwa [Poisoned, hv.alone h.mine hr]
  · exact hv.poison h.mine h.ne_none hr hp

theorem Within.refreshing :
    Refreshing calls who e.hist ↔ (calls who n).any CachedCall.refreshes = true := by
  unfold Refreshing
  rw [h.cur]
  simp

/-- One action of a call. -/
theorem within_step {β : Type} {a : MirrorAct β} {thread now : Nat} {c : Choice} {r : β}
    {y : Mirror} (hi : StickyInv i calls e)
    (hx : Mirror.exec thread now c a (e.inst i) = some (r, y)) (hcond : Serial i calls who a e)
    (hrank : a.rank ≤ 2) (hplain : (calls who n).any CachedCall.refreshes = false → a.rank ≤ 1) :
    StickyInv i calls (e.set i y) ∧ (sticky i calls).guar who e (e.set i y) ∧
      Within i calls who n h₀ (e.set i y) ∧
      (a.rank = 0 ∨ (calls who n).any CachedCall.refreshes = false → Poisoned i e →
        Poisoned i (e.set i y)) := by
  have hkeep : a.rank = 0 ∨ (calls who n).any CachedCall.refreshes = false → Poisoned i e →
      y.state.poisoned ≠ none := by
    rintro hcase hp
    have hle : a.rank = 0 ∨ a.rank = 1 := by
      rcases hcase with h0 | hno
      · exact .inl h0
      · have := hplain hno
        omega
    rcases hle with h0 | h1
    · exact poisoned_kept hx h0 hp
    · rcases hcond.observes h.mine h1 with hnone | hr
      · exact absurd hnone hp
      · rcases hcase with h0 | hno
        · omega
        · rw [h.refreshing, hno] at hr
          cases hr
  have hk : ¬ Refreshing calls who e.hist → Poisoned i e → y.state.poisoned ≠ none := by
    intro hr hp
    refine hkeep (.inr ?_) hp
    rw [h.refreshing] at hr
    simpa using hr
  refine ⟨hi.set h.mine hk, guar_set hi h.mine h.ne_none hk, ⟨h.mine, h.cur, h.past, h.owed⟩,
    fun hcase hp => ?_⟩
  unfold Poisoned
  rw [Mirrors.set_inst_self]
  exact hkeep hcase hp

end Within

theorem within_secure {p : CachedProg α} {k : Nat} (hp : UpTo k p) (hk : k ≤ 2)
    (hplain : (calls who n).any CachedCall.refreshes = false → k ≤ 1)
    (h : Within i calls who n h₀ e) :
    Secure (sticky i calls) (Serial i calls) who p (fun _ e' => Within i calls who n h₀ e' ∧
      (k = 0 ∨ (calls who n).any CachedCall.refreshes = false → Poisoned i e → Poisoned i e')) e := by
  obtain rfl := h.mine
  induction p generalizing e with
  | ret a =>
    exact .ret fun e' hv _ => ⟨h.view hv, fun _ hp => h.poisoned hv hp⟩
  | act a q ih =>
    cases a with
    | core a =>
      refine .coreAct fun e' r hv _ => (ih r (hp.2 r) (h.view hv)).mono
        fun _ e'' _ hq => ⟨hq.1, fun hcase hp => hq.2 hcase (h.poisoned hv hp)⟩
    | ext b =>
      refine .act fun e' c r y hv hi hx hcond => ?_
      have hrank : b.rank ≤ k := hp.1
      obtain ⟨hi', hg, hwithin, hkeep⟩ := within_step (h.view hv) hi hx hcond
        (hrank.trans hk) fun hno => hrank.trans (hplain hno)
      rw [mark?_of_rank (hrank.trans hk), Mirrors.log_none]
      refine ⟨hi', hg, (ih r (hp.2 r) hwithin).mono fun _ e'' _ hq => ⟨hq.1, fun hcase hp => ?_⟩⟩
      refine hq.2 hcase (hkeep ?_ (h.poisoned hv hp))
      rcases hcase with h0 | hno
      · exact .inl (by omega)
      · exact .inr hno

theorem act_ok {a : MirrorAct α} (hrank : a.rank ≤ 2)
    (hplain : (calls who n).any CachedCall.refreshes = false → a.rank ≤ 1)
    (h : Within i calls who n h₀ e) :
    Holds (sticky i calls) (Serial i calls) who (CachedIo.act a)
      (fun r e' => Within i calls who n h₀ e' ∧ ∃ v, r = .ok v) e := by
  obtain rfl := h.mine
  refine .act (mark?_of_rank hrank) fun e' c r y hv hi hx hcond => ?_
  obtain ⟨hi', hg, hwithin, -⟩ := within_step (h.view hv) hi hx hcond hrank hplain
  exact ⟨hi', hg, fun e'' hv' _ => ⟨hwithin.view hv', r, rfl⟩⟩

theorem rejectIfPoisoned_within (h : Within i calls who n h₀ e) :
    Holds (sticky i calls) (Serial i calls) who rejectIfPoisoned
      (fun r e' => Within i calls who n h₀ e' ∧
        (Poisoned i e → ∃ why, r = .error (.fenced why)) ∧
        ((∃ why, r = .error (.fenced why)) → Poisoned i e')) e := by
  obtain rfl := h.mine
  refine .bind (.act rfl fun e1 c st y hv hi hx _ => ?_)
  cases hx
  have h1 := h.view hv
  rw [Mirrors.set_self]
  refine ⟨hi, (sticky _ calls).guar_refl who e1, fun e2 hv2 _ => ?_⟩
  have h2 := h1.view hv2
  have hp1 : Poisoned who.inst e → Poisoned who.inst e1 := h.poisoned hv
  have hp2 : Poisoned who.inst e1 → Poisoned who.inst e2 := h1.poisoned hv2
  simp only
  split
  · rename_i why hwhy
    refine .fail fun e3 hv3 _ => ⟨h2.view hv3, fun _ => ⟨why, rfl⟩, fun _ => ?_⟩
    refine h2.poisoned hv3 (hp2 ?_)
    unfold Poisoned
    rw [hwhy]
    exact nofun
  · rename_i hnone
    refine .pure fun e3 hv3 _ => ⟨h2.view hv3, fun hp => ?_, fun ⟨why, hr⟩ => by cases hr⟩
    exact absurd hnone (hp1 hp)

/-- A read of a poisoned mirror fails. -/
theorem reads_fenced {f : Unit → CachedIo α} (hp : Poisoned i e) (h : Within i calls who n h₀ e) :
    Holds (sticky i calls) (Serial i calls) who (rejectIfPoisoned >>= f)
      (fun r e' => Within i calls who n h₀ e' ∧ ∃ why, r = .error (.fenced why)) e := by
  refine .bind ((rejectIfPoisoned_within h).mono fun r e' _ ⟨h', hfenced, _⟩ => ?_)
  obtain ⟨why, rfl⟩ := hfenced hp
  exact ⟨h', why, rfl⟩

/-! ### Writes -/

/-- When the procedure fails with `Fenced`, the mirror is poisoned. -/
def FencedPoisons (i : Nat) (calls : CachedCalls) (who : Who) (n : Nat)
    (p : CachedIo α) : Prop :=
  ∀ h₀ e, Within i calls who n h₀ e → Holds (sticky i calls) (Serial i calls) who p
    (fun r e' => Within i calls who n h₀ e' ∧
      ((∃ why, r = .error (.fenced why)) → Poisoned i e')) e

section Writes

variable {β : Type} {n : Nat}

theorem FencedPoisons.bind {p : CachedIo α} {f : α → CachedIo β}
    (hp : FencedPoisons i calls who n p) (hf : ∀ a, FencedPoisons i calls who n (f a)) :
    FencedPoisons i calls who n (p >>= f) := by
  intro h₀ e h
  refine .bind ((hp h₀ e h).mono fun r e' _ ⟨h', hr⟩ => ?_)
  cases r with
  | ok a => exact hf a h₀ e' h'
  | error err => exact ⟨h', fun ⟨why, hwhy⟩ => hr ⟨why, by cases hwhy; rfl⟩⟩

theorem FencedPoisons.ret {r : Res α} (hr : ∀ why, r ≠ .error (.fenced why)) :
    FencedPoisons i calls who n (Prog.ret r : CachedIo α) :=
  fun _ _ h => .ret fun _ hv _ => ⟨h.view hv, fun ⟨why, hwhy⟩ => absurd hwhy (hr why)⟩

theorem FencedPoisons.act {a : MirrorAct α} (hrank : a.rank ≤ 1) :
    FencedPoisons i calls who n (CachedIo.act a) :=
  fun _ _ h => (act_ok (hrank.trans (Nat.le_succ 1)) (fun _ => hrank) h).mono
    fun r _ _ ⟨h', v, hr⟩ => ⟨h', fun ⟨why, hwhy⟩ => by rw [hr] at hwhy; cases hwhy⟩

theorem rejectIfPoisoned_fenced : FencedPoisons i calls who n rejectIfPoisoned :=
  fun _ _ h => (rejectIfPoisoned_within h).mono fun _ _ _ ⟨h', _, hr⟩ => ⟨h', hr⟩

theorem writeThrough_fenced (p : Io α) : FencedPoisons i calls who n (writeThrough p) := by
  intro h₀ e h
  obtain rfl := h.mine
  refine .attemptBind (.core fun r e' hv _ => ?_)
  have h' := h.view hv
  cases r with
  | ok a => exact .pure fun e'' hv' _ => ⟨h'.view hv', fun ⟨why, hr⟩ => by cases hr⟩
  | error err =>
    cases err with
    | fenced reason =>
      refine .bind (.act rfl fun e1 c r y hv1 hi hx hcond => ?_)
      have h1 := h'.view hv1
      obtain ⟨hi', hg, hwithin, -⟩ := within_step h1 hi hx hcond (Nat.zero_le 2)
        fun _ => Nat.zero_le 1
      refine ⟨hi', hg, fun e2 hv2 _ => .fail fun e3 hv3 _ => ?_⟩
      have h2 := hwithin.view hv2
      refine ⟨h2.view hv3, fun _ => h2.poisoned hv3 (hwithin.poisoned hv2 ?_)⟩
      cases hx
      unfold Poisoned
      rw [Mirrors.set_inst_self]
      exact nofun
    | _ =>
      exact .bind (.pure fun e'' hv' _ => .fail fun e3 hv3 _ =>
        ⟨(h'.view hv').view hv3, fun ⟨why, hr⟩ => by cases hr⟩)

theorem syncAfterWrite_fenced : FencedPoisons i calls who n syncAfterWrite := by
  intro h₀ e h
  refine .bind (.coreAct fun v e' hv _ => ?_)
  obtain ⟨_ | ⟨m, t⟩, skip⟩ := v
  · exact FencedPoisons.ret (r := .ok ()) nofun h₀ e' (h.view hv)
  · exact FencedPoisons.act (a := .observe m) (Nat.le_refl 1) h₀ e' (h.view hv)

variable {cx : Ctx}

theorem putBytes_fenced (key : Key) (value : Bytes) :
    FencedPoisons i calls who n (putBytes cx key value) :=
  .bind (rejectIfPoisoned_fenced) fun _ => .bind (writeThrough_fenced _) fun _ =>
    .bind (.act (Nat.zero_le 1)) fun _ => syncAfterWrite_fenced

theorem setBytes_fenced (key : Key) (value : Bytes) :
    FencedPoisons i calls who n (setBytes cx key value) :=
  .bind (rejectIfPoisoned_fenced) fun _ => .bind (.act (Nat.zero_le 1)) fun _ =>
    .bind (writeThrough_fenced _) fun _ => .bind (.act (Nat.zero_le 1)) fun _ =>
      .bind (syncAfterWrite_fenced) fun _ => .ret nofun

theorem delete_fenced (key : Key) : FencedPoisons i calls who n (delete cx key) := by
  refine .bind (rejectIfPoisoned_fenced) fun _ => .bind (writeThrough_fenced _) fun existed => ?_
  cases existed with
  | true =>
    exact .bind (.act (Nat.zero_le 1)) fun _ =>
      .bind (syncAfterWrite_fenced) fun _ => .ret nofun
  | false => exact .bind (syncAfterWrite_fenced) fun _ => .ret nofun

theorem applyStaged_fenced (ops : List Op) :
    FencedPoisons i calls who n (CachedTx.applyStaged ops) := by
  induction ops with
  | nil => exact .ret nofun
  | cons op ops ih => exact .bind (.act (Nat.zero_le 1)) fun _ => ih

theorem commit_fenced (t : CachedTx) : FencedPoisons i calls who n (CachedTx.commit cx t) :=
  .bind (writeThrough_fenced _) fun _ => .bind (applyStaged_fenced _) fun _ =>
    syncAfterWrite_fenced

end Writes

/-! ### Refreshes -/

/-- The procedure only clears the poison on its way to a result of the given kind. -/
def ClearsFor (i : Nat) (calls : CachedCalls) (who : Who) (n : Nat)
    (P : α → Prop) (p : CachedIo α) : Prop :=
  ∀ h₀ e, Within i calls who n h₀ e → Poisoned i e →
    Holds (sticky i calls) (Serial i calls) who p
      (fun r e' => Within i calls who n h₀ e' ∧ (Poisoned i e' ∨ ∃ v, r = .ok v ∧ P v)) e

section Refreshes

variable {β : Type} {n : Nat} {P : α → Prop} {R : β → Prop}
  (hr : (calls who n).any CachedCall.refreshes = true)

variable {p : CachedIo α}

/-- The first part keeps the poison. -/
theorem ClearsFor.after {f : α → CachedIo β} (hp : ClearsFor i calls who n (fun _ => False) p)
    (hf : ∀ a, ClearsFor i calls who n R (f a)) : ClearsFor i calls who n R (p >>= f) := by
  intro h₀ e h hpois
  refine .bind ((hp h₀ e h hpois).mono fun r e' _ ⟨h', hcase⟩ => ?_)
  have hpois' : Poisoned i e' := by
    rcases hcase with hp' | ⟨_, _, hfalse⟩
    · exact hp'
    · exact hfalse.elim
  cases r with
  | ok a => exact hf a h₀ e' h' hpois'
  | error err => exact ⟨h', Or.inl hpois'⟩

theorem ClearsFor.keep (hp : UpTo 0 p) : ClearsFor i calls who n (fun _ => False) p :=
  fun _ _ h hpois => (within_secure hp (Nat.zero_le 2) (fun _ => Nat.zero_le 1) h).mono
    fun _ _ _ hq => ⟨hq.1, Or.inl (hq.2 (.inl rfl) hpois)⟩

include hr in
theorem ClearsFor.act {a : MirrorAct α} (hrank : a.rank ≤ 2) :
    ClearsFor i calls who n (fun _ => True) (CachedIo.act a) :=
  fun _ _ h _ => (act_ok hrank (fun hno => by rw [hr] at hno; cases hno) h).mono
    fun _ _ _ ⟨h', v, hv⟩ => ⟨h', Or.inr ⟨v, hv, trivial⟩⟩

theorem ClearsFor.ret (r : Res α) : ClearsFor i calls who n P (Prog.ret r : CachedIo α) :=
  fun _ _ h hpois => .ret fun _ hv _ => ⟨h.view hv, Or.inl (h.poisoned hv hpois)⟩

/-- The second part does not fail. -/
theorem ClearsFor.then {f : α → CachedIo β} (hp : ClearsFor i calls who n P p)
    (hf : ∀ a, ClearsFor i calls who n R (f a)) (hend : ∀ a h₀ e, P a → Within i calls who n h₀ e →
      Holds (sticky i calls) (Serial i calls) who (f a)
        (fun r e' => Within i calls who n h₀ e' ∧ ∃ v, r = .ok v ∧ R v) e) :
    ClearsFor i calls who n R (p >>= f) := by
  intro h₀ e h hpois
  refine .bind ((hp h₀ e h hpois).mono fun r e' _ ⟨h', hcase⟩ => ?_)
  cases r with
  | ok a =>
    rcases hcase with hp' | ⟨v, hv, hPv⟩
    · exact hf a h₀ e' h' hp'
    · obtain rfl := Except.ok.inj hv
      exact (hend a h₀ e' hPv h').mono fun _ _ _ hq => ⟨hq.1, Or.inr hq.2⟩
  | error err =>
    rcases hcase with hp' | ⟨v, hv, -⟩
    · exact ⟨h', Or.inl hp'⟩
    · cases hv

theorem ret_ends {v : α} (hv : P v) {h₀ : Reports} {e : Mirrors}
    (h : Within i calls who n h₀ e) :
    Holds (sticky i calls) (Serial i calls) who (Pure.pure v : CachedIo α)
      (fun r e' => Within i calls who n h₀ e' ∧ ∃ v, r = .ok v ∧ P v) e :=
  .pure fun _ hview _ => ⟨h.view hview, v, rfl, hv⟩

include hr in
theorem finishWarm_clears (m : Manifest) :
    ClearsFor i calls who n (fun _ => True) (finishWarm m) :=
  .after (.keep (eachWal_scans overlayRecords_scans _ _).upTo) fun _ =>
    .after (.keep (.act (Nat.le_refl 0))) fun _ =>
      .after (.keep (.act (Nat.le_refl 0))) fun _ =>
        .after (.keep (dropUnscanned_scans _ _).upTo) fun _ => .act hr (Nat.le_succ 1)

variable {cx : Ctx}

include hr in
theorem scanPages_clears (m : Manifest) (pages applied : Nat) :
    ClearsFor i calls who n (fun x => x.1 = true) (scanPages cx m pages applied) := by
  induction pages generalizing applied with
  | zero => exact .ret _
  | succ pages ih =>
    refine .after (.keep (.act (Nat.le_refl 0))) fun st =>
      .after (.keep (.core (.any _))) fun batch => ?_
    have hfinish : ∀ k : Nat, ClearsFor i calls who n (fun x => x.1 = true)
        (do finishWarm m; return (true, k) : CachedIo (Bool × Nat)) := fun k =>
      .then (finishWarm_clears hr m) (fun _ => .ret _) fun _ _ _ _ h =>
        ret_ends (P := fun x : Bool × Nat => x.1 = true) rfl h
    cases batch.getLast? with
    | none => exact hfinish applied
    | some last =>
      refine .after (.keep (mirrorPage_scans _ _ _).upTo) fun k =>
        .after (.keep (.act (Nat.le_refl 0))) fun _ => ?_
      split
      · exact hfinish k
      · exact ih k

include hr in
theorem warmPages_clears (k : Nat) :
    ClearsFor i calls who n (fun x => x.1 = true) (warmPages cx k) := by
  refine .after (.keep (.act (Nat.le_refl 0))) fun st => ?_
  split
  · exact .ret _
  · exact .after (.keep (.core (.any _))) fun x => scanPages_clears hr _ _ _

include hr in
theorem warmLoop_clears (rounds applied : Nat) :
    ClearsFor i calls who n (fun _ => True) (warmLoop cx rounds applied) := by
  induction rounds generalizing applied with
  | zero => exact .ret _
  | succ rounds ih =>
    refine .then (warmPages_clears hr _) (fun x => ?_) fun x h₀ e hx h => ?_
    · obtain ⟨_ | _, k⟩ := x
      · exact ih _
      · exact .ret _
    · obtain ⟨done, k⟩ := x
      cases hx
      exact ret_ends trivial h

theorem withScanGate_clears (hp : ClearsFor i calls who n P p) :
    ClearsFor i calls who n P (withScanGate p) := by
  refine .after (.keep (.act (Nat.le_refl 0))) fun _ h₀ e h hpois => ?_
  refine .attemptBind ((hp h₀ e h hpois).mono fun r e' _ ⟨h', hcase⟩ => ?_)
  rcases hcase with hpois' | hok
  · exact ClearsFor.after (.keep (.act (a := .scanRelease) (Nat.le_refl 0)))
      (fun _ => .ret r) h₀ e' h' hpois'
  · refine .bind ((act_ok (a := .scanRelease) (Nat.zero_le 2) (fun _ => Nat.zero_le 1) h').mono
      fun r' e'' _ ⟨h'', v, hv⟩ => ?_)
    subst hv
    exact .ret fun e3 hview _ => ⟨h''.view hview, Or.inr hok⟩

include hr in
/-- A refresh that fails leaves the poison. -/
theorem refresh_clears : ClearsFor i calls who n (fun _ => True) (refresh cx) := by
  refine .after (.keep (.act (Nat.le_refl 0))) fun known =>
    .after (.keep (.core (.any _))) fun x => ?_
  have hend : ∀ {a : MirrorAct Unit} (k : Nat) {h₀ : Reports} {e : Mirrors}, a.rank ≤ 2 →
      Within i calls who n h₀ e → Holds (sticky i calls) (Serial i calls) who
        (do CachedIo.act a; return k : CachedIo Nat)
        (fun r e' => Within i calls who n h₀ e' ∧ ∃ v, r = .ok v ∧ True) e := by
    intro a k h₀ e ha h
    refine .bind ((act_ok ha (fun hno => by rw [hr] at hno; cases hno) h).mono
      fun r e' _ ⟨h', v, hv⟩ => ?_)
    subst hv
    exact ret_ends trivial h'
  have hclears : ∀ {a : MirrorAct Unit} (k : Nat), a.rank ≤ 2 →
      ClearsFor i calls who n (fun _ => True) (do CachedIo.act a; return k : CachedIo Nat) :=
    fun k ha _ _ h _ => (hend k ha h).mono fun _ _ _ hq => ⟨hq.1, Or.inr hq.2⟩
  simp only
  split
  · exact .ret _
  · refine .after (.keep (.core (.any _))) fun owner => ?_
    split
    · exact .then (withScanGate_clears (.after (.keep (.act (Nat.le_refl 0)))
        fun _ => warmLoop_clears hr _ _)) (fun k => hclears k (Nat.le_refl 2))
        fun k h₀ e _ h => hend k (Nat.le_refl 2) h
    · exact .after (.keep (eachWal_scans applyRecords_scans _ _).upTo) fun k =>
        hclears k (Nat.le_refl 2)

end Refreshes

/-! ### Clients -/

/-- What the reply of a call says about the poison; the call began in `e₀`. -/
structure Settled (i : Nat) (calls : CachedCalls) (who : Who) (c : CachedCall)
    (n : Nat) (h₀ : Reports) (e₀ : Mirrors) (r : Reply) (e : Mirrors) : Prop where
  within : Within i calls who n h₀ e
  read : c.reads = true → Poisoned i e₀ → r.isFenced = true
  write : c.writes = true → r.isFenced = true → Poisoned i e
  refresh : c = .refresh → r.error? ≠ none → Poisoned i e₀ → Poisoned i e

theorem Settled.view {c : CachedCall} {e0 e' : Mirrors} {r : Reply}
    (h : Settled i calls who c n h₀ e0 r e) (hv : View i calls who e e') :
    Settled i calls who c n h₀ e0 r e' where
  within := h.within.view hv
  read := h.read
  write hc hf := h.within.poisoned hv (h.write hc hf)
  refresh hc he hp := h.within.poisoned hv (h.refresh hc he hp)

section Settle

variable {cx : Ctx} {c : CachedCall} {n : Nat} {h₀ : Reports} {e : Mirrors}
  (hc : calls who n = some c) (h : Within i calls who n h₀ e)

include hc h in
/-- Calls that are no writes, and no reads or refreshes of a poisoned mirror. -/
theorem settled_other (txs : CachedTxTable) (hread : c.reads = true → ¬ Poisoned i e)
    (hwrite : c.writes = false) (hrefresh : c = .refresh → ¬ Poisoned i e) :
    Secure (sticky i calls) (Serial i calls) who (c.run cx txs)
      (fun x e' => Settled i calls who c n h₀ e x.1 e') e := by
  refine (within_secure (CachedCall.run_upTo c) ?_ (fun hno => ?_) h).mono
    fun x e' _ hq => ⟨hq.1, fun hr hp => absurd hp (hread hr), fun hwr => ?_,
      fun hr _ hp => absurd hp (hrefresh hr)⟩
  · split <;> decide
  · rw [hc] at hno
    rw [if_neg (by simpa using hno)]
  · rw [hwrite] at hwr
    cases hwr

include h in
theorem settled_write {p : CachedIo α} {g : Res α → Reply × CachedTxTable}
    (hkind : c.reads = false ∧ c ≠ .refresh) (hp : FencedPoisons i calls who n p)
    (hok : ∀ v, (g (.ok v)).1.error? = none) (herr : ∀ e, (g (.error e)).1.error? = some e) :
    Secure (sticky i calls) (Serial i calls) who (Prog.bind p fun r => .ret (g r))
      (fun x e' => Settled i calls who c n h₀ e x.1 e') e := by
  refine .bind (.mono (hp h₀ e h) fun r e' _ ⟨h', hr⟩ => .ret fun e'' hv _ => ?_)
  refine Settled.view ⟨h', fun hread => ?_, fun _ hf => hr ?_, fun hc => absurd hc hkind.2⟩ hv
  · rw [hkind.1] at hread
    cases hread
  · cases r with
    | ok v => simp [Reply.isFenced, hok] at hf
    | error err =>
      rw [Reply.isFenced, herr] at hf
      cases err with
      | fenced why => exact ⟨why, rfl⟩
      | _ => cases hf

include h in
theorem settled_read {f : Unit → CachedIo α} {g : Res α → Reply × CachedTxTable}
    (hkind : c.writes = false ∧ c ≠ .refresh) (hp : Poisoned i e)
    (hg : ∀ why, (g (.error (.fenced why))).1.isFenced = true) :
    Secure (sticky i calls) (Serial i calls) who
      (Prog.bind (rejectIfPoisoned >>= f : CachedIo α) fun r => .ret (g r))
      (fun x e' => Settled i calls who c n h₀ e x.1 e') e := by
  refine .bind (.mono (reads_fenced hp h) fun r e' _ ⟨h', why, hr⟩ =>
    .ret fun e'' hv _ => ?_)
  subst hr
  refine Settled.view ⟨h', fun _ _ => hg why, fun hwr => ?_, fun hc => absurd hc hkind.2⟩ hv
  rw [hkind.1] at hwr
  cases hwr

include hc h in
theorem call_settled (txs : CachedTxTable) :
    Secure (sticky i calls) (Serial i calls) who (c.run cx txs)
      (fun x e' => Settled i calls who c n h₀ e x.1 e') e := by
  cases c with
  | put _ _ => exact settled_write h ⟨rfl, nofun⟩ (putBytes_fenced _ _) (fun _ => rfl) fun _ => rfl
  | set _ _ => exact settled_write h ⟨rfl, nofun⟩ (setBytes_fenced _ _) (fun _ => rfl) fun _ => rfl
  | delete _ => exact settled_write h ⟨rfl, nofun⟩ (delete_fenced _) (fun _ => rfl) fun _ => rfl
  | txCommit _ => exact settled_write h ⟨rfl, nofun⟩ (commit_fenced _) (fun _ => rfl) fun _ => rfl
  | get _ | has _ | gets _ _ _ =>
    by_cases hp : Poisoned i e
    · exact settled_read h ⟨rfl, nofun⟩ hp fun _ => rfl
    · exact settled_other hc h txs (fun _ => hp) rfl nofun
  | refresh =>
    by_cases hp : Poisoned i e
    · refine .bind (.mono (refresh_clears (by rw [hc]; rfl) h₀ e h hp)
        fun r e' _ ⟨h', hcase⟩ => .ret fun e'' hv _ => ?_)
      refine Settled.view ⟨h', nofun, nofun, fun _ herr _ => ?_⟩ hv
      rcases hcase with hp' | ⟨v, rfl, -⟩
      · exact hp'
      · exact absurd rfl herr
    · exact settled_other hc h txs nofun rfl fun _ => hp
  | _ => exact settled_other hc h txs nofun rfl nofun

end Settle

theorem sticky_client {cx : Ctx} (hw : who.inst = i) (cs : List CachedCall) (n : Nat)
    (txs : CachedTxTable) (hcalls : ∀ k, calls who (n + k) = cs[k]?)
    (hidle : current who e.hist = none) :
    Secure (sticky i calls) (Serial i calls) who (cachedClient cx cs n txs) (fun _ _ => True) e := by
  induction cs generalizing n txs e with
  | nil => exact .ret fun _ _ _ => trivial
  | cons c cs ih =>
    have hc : calls who n = some c := hcalls 0
    refine .act fun e1 _ _ y hv hi hx hcond => ?_
    cases hx
    rw [Mirrors.set_self]
    obtain ⟨hi1, hnone⟩ := hi.invoked hw (hv.current.trans hidle) hcond
    refine ⟨hi1, guar_report fun who' hw' _ => hnone who' hw', .bind ?_⟩
    have hwithin : Within i calls who n e1.hist (e1.log who (some (.invoked n))) :=
      ⟨hw, current_log_invoked e1 n, by simp [Mirrors.log, past], fun _ => .rfl⟩
    refine (call_settled hc hwithin txs).mono fun x e2 _ hsettled => ?_
    refine .act fun e3 _ _ y hv3 hi3 hx hcond3 => ?_
    cases hx
    rw [Mirrors.set_self]
    obtain ⟨hwithin3, hread, hwrite, hrefresh⟩ := hsettled.view hv3
    -- what is owed when the call begins is also in the state
    have howed : Owed i calls e1.hist → Poisoned i e1 := hi.owed hnone
    refine ⟨hi3.returned hw hc hwithin3.cur (fun hr ho => hread hr (howed (hwithin3.past ▸ ho)))
      hwrite fun hr herr ho => ?_, guar_report fun who' hw' hne => ?_, ih (n + 1) x.2 (fun k => ?_) ?_⟩
    · by_cases hcr : c = .refresh
      · refine hrefresh hcr herr (howed ?_)
        rwa [← hwithin3.owed (hwithin3.refreshing.mpr (by rw [hc]; exact hr))]
      · exact hcond3 hw ⟨c, hc, hr, hcr⟩ herr ho
    · exact hi3.apart who who' hw hw' hne hwithin3.ne_none
    · rw [show n + 1 + k = n + (k + 1) by omega]
      exact hcalls (k + 1)
    · exact current_log_returned e3 n x.1

/-- What happens on the mirrors of other handles does not matter. -/
theorem sticky_elsewhere (hne : who.inst ≠ i) (p : CachedProg α) (e : Mirrors) :
    Secure (sticky i calls) (Serial i calls) who p (fun _ _ => True) e := by
  induction p generalizing e with
  | ret a => exact .ret fun _ _ _ => trivial
  | act a k ih =>
    cases a with
    | core a => exact .coreAct fun e' r _ _ => ih r e'
    | ext b =>
      refine .act fun e' c r y hv hi hx _ => ?_
      have hinst : (e'.set who.inst y).inst i = e'.inst i := Mirrors.set_inst_ne _ _ _ hne.symm
      have hset : StickyInv i calls (e'.set who.inst y) := by
        refine ⟨hi.apart, fun hno ho => ?_, hi.replies⟩
        unfold Poisoned
        rw [hinst]
        exact hi.owed hno ho
      have hview : (sticky i calls).guar who e' (e'.set who.inst y) := by
        refine fun who' _ => ⟨⟨[], rfl, nofun, fun _ _ => nofun⟩, fun _ _ => ?_, fun _ _ _ hp => ?_⟩
        · rw [hinst]
        · unfold Poisoned
          rw [hinst]
          exact hp
      cases b.mark? with
      | none => exact ⟨hset, hview, ih r _⟩
      | some m =>
        refine ⟨hset.elsewhere hne, fun who' hne' => (hview who' hne').trans ?_, ih r _⟩
        refine ⟨⟨[(who, m)], rfl, fun x hx => ?_, fun _ _ x hx => ?_⟩, fun _ _ => rfl,
          fun _ _ _ hp => hp⟩
        · rw [List.mem_singleton.mp hx]
          exact hne'.symm
        · rw [List.mem_singleton.mp hx]
          exact hne

end Procedures

end Cached

/-- Calls on clones of a cached store, interleaved in any way with each other and with
anything else, such as a takeover: if refreshes do not overlap other calls and a mirror is
not declared in sync while it is poisoned, then a read that begins after a write was fenced
fails with `Fenced`, unless a refresh has succeeded in between. -/
theorem poison_sticks (i : Nat) (jobs : List CachedJob) (w : World) (e : Mirrors)
    (sched : List (Nat × Choice)) (P' : cachedEngine.Pool)
    (hrun : cachedEngine.runPool sched ⟨(w, e.fresh), cachedSpawn jobs⟩ = some P')
    (hserial : cachedEngine.RunMeets (MirrorCond.step (Serial i (callOf jobs))) sched
      ⟨(w, e.fresh), cachedSpawn jobs⟩) :
    ∀ h who n r, ((who, .returned n r) :: h) <:+ P'.state.2.hist → who.inst = i →
      (callOf jobs who n).any CachedCall.reads → Owed i (callOf jobs) (past who h) →
      r.isFenced = true := by
  have hinv : StickyInv i (callOf jobs) P'.state.2 := by
    refine Cached.pool_inv (O := sticky i (callOf jobs)) (C := Serial i (callOf jobs))
      (fun w w' _ _ hne h => h w' hne.symm) ?_ ?_ hrun hserial
    · exact ⟨fun _ _ _ _ _ hcur => absurd rfl hcur, fun _ ho => ho.elim,
        fun h who n r hsuf => by cases List.suffix_nil.mp hsuf⟩
    · intro j job hj
      by_cases hi : job.inst = i
      · cases job with
        | plain job =>
          exact .mono (.lift _) fun _ _ _ _ => trivial
        | clone i' cx cs =>
          refine .bind (.mono (Cached.sticky_client hi cs 0 CachedTxTable.none
            (fun k => ?_) rfl) fun _ _ _ _ => .ret fun _ _ _ => trivial)
          simp [callOf, hj]
      · exact Cached.sticky_elsewhere hi _ _
  exact hinv.replies

/-! ## Writes around a takeover -/

/-- A test for `Serial`. -/
def serialTest (i : Nat) (calls : CachedCalls) {β : Type} (who : Who)
    (a : Plus Act MirrorAct β) (s : World × Mirrors) : Bool :=
  match a with
  | .core _ => true
  | .ext b =>
    match b with
    | .mark (.invoked _) => s.2.hist.all fun x => x.1 = who || x.1.inst ≠ i
    | .mark (.returned n _) => !(calls who n).any CachedCall.refreshes
    | .observe _ | .scanFinish _ => (s.2.inst i).state.poisoned.isNone
    | _ => true

theorem current_eq_none {who : Who} {h : Reports} (hno : ∀ x ∈ h, x.1 ≠ who) :
    current who h = none := by
  simpa [current] using current_append (h := []) hno

theorem serial_of_test {i : Nat} {calls : CachedCalls} {β : Type} (who : Who)
    (a : Plus Act MirrorAct β) (s : World × Mirrors) (r : β) (s' : World × Mirrors)
    (h : serialTest i calls who a s = true) : MirrorCond.step (Serial i calls) who a s r s' := by
  cases a with
  | core a => trivial
  | ext b =>
    intro hw
    cases b with
    | mark m =>
      cases m with
      | invoked n =>
        intro who' hw' hne hcur
        refine absurd (current_eq_none fun x hx heq => ?_) hcur
        have hx' := List.all_eq_true.mp h x hx
        rw [heq] at hx'
        simp [hne, hw'] at hx'
      | returned n r =>
        rintro ⟨c, hc, hr, -⟩
        simp [serialTest, hc, hr] at h
    | observe m | scanFinish m => exact .inl (Option.isNone_iff_eq_none.mp h)
    | _ => trivial

/-- A clone writes and reads, and another writer opens the prefix. -/
def writeAndOpen : List CachedJob :=
  [.clone 0 Cached.firstCtx [.put "b" [1], .get "a"], .plain (.opener 1 Cached.secondBuilder [])]

set_option maxRecDepth 100000 in
theorem poison_sticks_put_after_takeover : ∃ s P' h r, openedWarm = some s ∧
    cachedEngine.runPool (turns [(1, 12), (0, 18)])
      ⟨(s.1, s.2.fresh), cachedSpawn writeAndOpen⟩ = some P' ∧
    P'.state.2.hist = (⟨0, 0⟩, .returned 1 r) :: h ∧
    Owed 0 (callOf writeAndOpen) (past ⟨0, 0⟩ h) ∧ r.isFenced = true := by
  have heval : openedWarm.map (fun s =>
      ((cachedEngine.runPool (turns [(1, 12), (0, 18)])
        ⟨(s.1, s.2.fresh), cachedSpawn writeAndOpen⟩).map fun P => P.state.2.hist,
      cachedEngine.passes (serialTest 0 (callOf writeAndOpen)) (turns [(1, 12), (0, 18)])
        ⟨(s.1, s.2.fresh), cachedSpawn writeAndOpen⟩)) =
      some (some [(⟨0, 0⟩, .returned 1 (.value (.error Cached.superseded))),
        (⟨0, 0⟩, .invoked 1), (⟨0, 0⟩, .returned 0 (.done (.error Cached.superseded))),
        (⟨0, 0⟩, .invoked 0)], true) := by decide +kernel
  obtain ⟨s, hs, heval⟩ := Option.map_eq_some_iff.mp heval
  simp only [Prod.mk.injEq] at heval
  obtain ⟨P', hP', hhist⟩ := Option.map_eq_some_iff.mp heval.1
  have howed : Owed 0 (callOf writeAndOpen) (past ⟨0, 0⟩ [(⟨0, 0⟩, .invoked 1),
      (⟨0, 0⟩, .returned 0 (.done (.error Cached.superseded))), (⟨0, 0⟩, .invoked 0)]) := by
    simp [past, Owed, callOf, writeAndOpen, CachedCall.writes, Reply.isFenced, Reply.error?,
      Cached.superseded, StoreError.isFenced]
  refine ⟨s, P', _, _, hs, hP', hhist, howed, ?_⟩
  exact poison_sticks 0 writeAndOpen s.1 s.2 _ P' hP' (.of_passes serial_of_test heval.2) _ ⟨0, 0⟩ 1 _
    (by rw [hhist]) rfl rfl howed

/-- Two clones write, and another writer opens the prefix. -/
def writesAndOpen : List CachedJob :=
  [.clone 0 Cached.firstCtx [.put "a" [1]], .clone 0 Cached.firstCtx [.put "b" [1], .get "a"],
    .plain (.opener 1 Cached.secondBuilder [])]

set_option maxRecDepth 100000 in
/-- The first put is durable before the takeover and observes the manifest after the second
one was fenced. The read after the fenced put then succeeds. -/
theorem late_put_clears_poison :
    (openedWarm.bind fun s => cachedEngine.runPool
      (turns [(0, 24), (2, 12), (1, 15), (0, 2), (1, 4)])
      ⟨(s.1, s.2.fresh), cachedSpawn writesAndOpen⟩).map (fun P =>
        (P.state.2.replies ⟨0, 0⟩, P.state.2.replies ⟨1, 0⟩)) =
      some ([.done (.ok ())], [.done (.error Cached.superseded), .value (.ok (some [1]))]) := by
  decide +kernel

end OxKv
