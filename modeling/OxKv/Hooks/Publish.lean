import OxKv.Lib.Extend
import OxKv.Machine

/-!
Publication of change events: `notify`, the bounded history, the watch channels and
`events_since`.

`notify` passes the lock of `Subscribers` three times: it draws a number, it appends to
the history, and it sends to the watchers. Each of these sections is one action here, so
publishers can overtake each other between any two of them.

* `HookInv`: what holds between any two sections when none of them is overtaken;
* `recovery_complete`: in such runs nothing is missing and nothing out of order;
* `recovery_skips_number`: publishers that overtake each other leave a hole.
-/

namespace OxKv

/-- Which keys a validator, an observer or a watcher is for. -/
inductive Scope where
  | all
  | exact (key : Key)
  | startsWith (p : String)
  deriving DecidableEq

def Scope.matches : Scope → Key → Bool
  | .all, _ => true
  | .exact e, key => e = key
  | .startsWith p, key => p.toList.isPrefixOf key.toList

/-- A `ChangeEvent` with the number `notify` gave it. -/
structure Published where
  event : ChangeEvent
  seq : Nat
  deriving DecidableEq

/-- `WATCH_CAPACITY`. -/
def watchCapacity : Nat := 256

/-- `EVENT_HISTORY_CAPACITY`. Irreducible, since unification would count it down. -/
@[irreducible] def eventHistoryCapacity : Nat := 1024

/-- The two ends of a watch channel: what waits in it, and what the receiver has taken. -/
structure Channel where
  queue : List Published
  received : List Published
  connected : Bool
  deriving DecidableEq

/-- Why `try_send` fails. -/
inductive SendError where
  | full
  | disconnected
  deriving DecidableEq

/-- `try_send`. The channel has one place more than its capacity, for its one sender. -/
def Channel.trySend (c : Channel) (e : Published) : Channel × Option SendError :=
  if c.connected then
    if watchCapacity < c.queue.length then (c, some .full)
    else ({ c with queue := c.queue ++ [e] }, none)
  else (c, some .disconnected)

/-- An answer of `events_since`: what was asked, the next number at that moment, the list. -/
structure Answer where
  since : Nat
  current : Nat
  events : Option (List Published)
  deriving DecidableEq

/-- `Subscribers`, with the channels its senders lead to. No section reads the last three
fields: they record what was pushed, how many events were sent, and what was answered. -/
structure Subscribers where
  senders : List (Scope × Nat)
  seq : Nat
  history : List Published
  channels : List Channel
  log : List Published
  delivered : Nat
  answers : List Answer
  deriving DecidableEq

namespace Subscribers

def new : Subscribers := ⟨[], 0, [], [], [], 0, []⟩

def pushSender (s : Subscribers) (scope : Scope) : Nat × Subscribers :=
  (s.channels.length, { s with
    senders := s.senders ++ [(scope, s.channels.length)]
    channels := s.channels ++ [⟨[], [], true⟩] })

def allocate (s : Subscribers) : Nat × Subscribers := (s.seq, { s with seq := s.seq + 1 })

/-- `while history.len() > EVENT_HISTORY_CAPACITY { history.pop_front(); }` -/
def trim (history : List Published) : List Published :=
  history.drop (history.length - eventHistoryCapacity)

def push (s : Subscribers) (e : Published) : Subscribers :=
  { s with history := trim (s.history ++ [e]), log := s.log ++ [e] }

/-- `Vec::swap_remove`: the last element takes the place of the removed one. -/
def swapRemove {α : Type} (l : List α) (i : Nat) : List α :=
  match l.getLast? with
  | none => []
  | some x => (l.set i x).dropLast

/-- The loop of the third section, from sender `i` on: a closed channel loses its sender,
a full one misses the event. -/
def sendFrom (e : Published) : Nat → Nat → Subscribers → Subscribers
  | 0, _, s => s
  | fuel + 1, i, s =>
    match s.senders[i]? with
    | none => s
    | some (scope, id) =>
      if scope.matches e.event.key then
        match s.channels[id]? with
        | none => sendFrom e fuel (i + 1) s
        | some c =>
          let sent := c.trySend e
          let s := { s with channels := s.channels.set id sent.1 }
          if sent.2 = some .disconnected then
            sendFrom e fuel i { s with senders := swapRemove s.senders i }
          else sendFrom e fuel (i + 1) s
      else sendFrom e fuel (i + 1) s

/-- The third section of `notify`. Every round settles one sender. -/
def deliver (s : Subscribers) (e : Published) : Subscribers :=
  let s := sendFrom e s.senders.length 0 s
  { s with delivered := s.delivered + 1 }

def eventsSince (s : Subscribers) (seq : Nat) : Option (List Published) :=
  if s.seq ≤ seq then some []
  else
    match s.history.head? with
    | none => none
    | some first =>
      if seq + 1 < first.seq then none
      else some (s.history.filter fun e => seq < e.seq)

def receive (s : Subscribers) (id : Nat) : Option Published × Subscribers :=
  match s.channels[id]? with
  | some ⟨e :: queue, received, connected⟩ =>
    (some e, { s with channels := s.channels.set id ⟨queue, received ++ [e], connected⟩ })
  | _ => (none, s)

def close (s : Subscribers) (id : Nat) : Subscribers :=
  match s.channels[id]? with
  | some c => { s with channels := s.channels.set id { c with connected := false } }
  | none => s

end Subscribers

/-- The critical sections under the lock of `Subscribers`, and the receiver's actions. -/
inductive HookAct : Type → Type where
  | allocate : HookAct Nat
  | push (e : Published) : HookAct Unit
  | deliver (e : Published) : HookAct Unit
  | eventsSince (seq : Nat) : HookAct (Option (List Published))
  | currentSeq : HookAct Nat
  | watchScope (scope : Scope) : HookAct Nat
  | receive (id : Nat) : HookAct (Option Published)
  | close (id : Nat) : HookAct Unit

def execHook {β : Type} : HookAct β → Subscribers → β × Subscribers
  | .allocate, s => s.allocate
  | .push e, s => ((), s.push e)
  | .deliver e, s => ((), s.deliver e)
  | .eventsSince seq, s =>
    (s.eventsSince seq, { s with answers := s.answers ++ [⟨seq, s.seq, s.eventsSince seq⟩] })
  | .currentSeq, s => (s.seq, s)
  | .watchScope scope, s => s.pushSender scope
  | .receive id, s => s.receive id
  | .close id, s => ((), s.close id)

def hooks : Machine HookAct where
  State := Subscribers
  Choice := Unit
  Who := Nat
  exec _ _ a s := some (execHook a s)

/-- `notify`, up to the calls of the observers, which only read. -/
def notify (event : ChangeEvent) : Prog HookAct Unit := do
  let seq ← Prog.perform .allocate
  Prog.perform (.push ⟨event, seq⟩)
  Prog.perform (.deliver ⟨event, seq⟩)

/-- What publishers, watchers and resuming consumers call. -/
inductive HookCall where
  | notify (event : ChangeEvent)
  | eventsSince (seq : Nat)
  | currentSeq
  | watchScope (scope : Scope)
  | receive (id : Nat)
  | close (id : Nat)

def HookCall.run : HookCall → Prog HookAct Unit
  | .notify event => OxKv.notify event
  | .eventsSince seq => do let _ ← Prog.perform (.eventsSince seq)
  | .currentSeq => do let _ ← Prog.perform .currentSeq
  | .watchScope scope => do let _ ← Prog.perform (.watchScope scope)
  | .receive id => do let _ ← Prog.perform (.receive id)
  | .close id => Prog.perform (.close id)

def hookThread : List HookCall → Prog HookAct Unit
  | [] => .ret ()
  | c :: calls => c.run.bind fun _ => hookThread calls

def spawnHooks (jobs : List (List HookCall)) : hooks.Pool :=
  ⟨.new, jobs.mapIdx fun j calls => (j, hookThread calls)⟩

/-- No publisher is overtaken: an event is pushed, and sent, once every event with a
smaller number was, and `events_since` is asked while no number in its range is between
its allocation and its push. -/
def InOrder : hooks.StepCond
  | _, _, .push e, s, _, _ => e.seq = s.log.length
  | _, _, .deliver e, s, _, _ => e.seq = s.delivered
  | _, _, .eventsSince seq, s, _, _ => s.seq ≤ seq + 1 ∨ s.log.length = s.seq
  | _, _, _, _, _, _ => True

/-! ## Sending to the watchers -/

namespace Subscribers

theorem swapRemove_append {α : Type} (pre : List α) (x : α) (post : List α) :
    ∃ rest, rest.Perm post ∧ swapRemove (pre ++ x :: post) pre.length = pre ++ rest := by
  rcases List.eq_nil_or_concat post with rfl | ⟨post', y, rfl⟩
  · refine ⟨[], .nil, ?_⟩
    simp [swapRemove]
  · refine ⟨y :: post', (List.perm_append_singleton y post').symm.trans (by simp), ?_⟩
    have hlast : (pre ++ x :: (post' ++ [y])).getLast? = some y := by
      rw [← List.cons_append, ← List.append_assoc, List.getLast?_concat]
    have hset : (pre ++ x :: (post' ++ [y])).set pre.length y = pre ++ y :: post' ++ [y] := by simp
    rw [List.concat_eq_append, swapRemove, hlast]
    dsimp only
    rw [hset, List.dropLast_concat]

/-- What a part of the loop does: each of the channels `ids` gets the event at most once,
and nothing else changes but the list of senders. -/
structure Sends (e : Published) (ids : List Nat) (s s' : Subscribers) : Prop where
  rest : s' = { s with senders := s'.senders, channels := s'.channels }
  channel : ∀ j : Nat, s'.channels[j]? = s.channels[j]? ∨ j ∈ ids ∧ ∃ c, s.channels[j]? = some c ∧
    s'.channels[j]? = some { c with queue := c.queue ++ [e] }

variable {e : Published}

theorem Sends.refl {ids : List Nat} (s : Subscribers) : Sends e ids s s :=
  ⟨rfl, fun _ => .inl rfl⟩

/-- One channel first, then others. -/
theorem Sends.cons {id : Nat} {ids ids' : List Nat} {s s1 s2 : Subscribers} (h1 : Sends e [id] s s1)
    (h2 : Sends e ids' s1 s2) (hsub : ids' ⊆ ids) (hid : id ∉ ids) : Sends e (id :: ids) s s2 := by
  refine ⟨by rw [h2.rest, h1.rest], fun j => ?_⟩
  rcases h1.channel j with heq | ⟨hj, c, hc, hsent⟩
  · rw [← heq]
    refine (h2.channel j).imp (fun h => h) ?_
    rintro ⟨hj, hrest⟩
    exact ⟨List.mem_cons_of_mem _ (hsub hj), hrest⟩
  · obtain rfl := List.mem_singleton.mp hj
    refine .inr ⟨List.mem_cons_self, c, hc, ?_⟩
    rcases h2.channel j with heq | ⟨hj', -⟩
    · rw [heq, hsent]
    · exact absurd (hsub hj') hid

theorem Sends.trySend {s : Subscribers} {id : Nat} {c : Channel} (hc : s.channels[id]? = some c) :
    Sends e [id] s { s with channels := s.channels.set id (c.trySend e).1 } := by
  refine ⟨rfl, fun j => ?_⟩
  by_cases hj : id = j
  · subst hj
    have hlt : id < s.channels.length := (List.getElem?_eq_some_iff.mp hc).1
    rw [List.getElem?_set_self hlt, hc]
    unfold Channel.trySend
    split
    · split
      · exact .inl rfl
      · exact .inr ⟨List.mem_singleton_self _, c, rfl, rfl⟩
    · exact .inl rfl
  · exact .inl (List.getElem?_set_ne hj)

/-- The loop touches the channels and their senders only. -/
theorem sendFrom_rest (e : Published) (fuel i : Nat) (s : Subscribers) :
    sendFrom e fuel i s = { s with
      senders := (sendFrom e fuel i s).senders, channels := (sendFrom e fuel i s).channels } := by
  induction fuel generalizing i s with
  | zero => rfl
  | succ fuel ih =>
    unfold sendFrom
    split
    · rfl
    · split
      · split
        · exact ih _ _
        · dsimp only
          split
          · exact ih _ _
          · exact ih _ _
      · exact ih _ _

/-- The loop from the senders `post` on: each of their channels gets the event at most
once, and those of them that stay keep different channels. -/
theorem sendFrom_spec (e : Published) (fuel : Nat) (pre post : List (Scope × Nat))
    (s : Subscribers) (hs : s.senders = pre ++ post) (hn : (post.map Prod.snd).Nodup) :
    Sends e (post.map Prod.snd) s (sendFrom e fuel pre.length s) ∧
      ∃ rest, (sendFrom e fuel pre.length s).senders = pre ++ rest ∧ rest.Subperm post := by
  induction fuel generalizing pre post s with
  | zero => exact ⟨.refl s, post, hs, .refl _⟩
  | succ fuel ih =>
    cases post with
    | nil =>
      have hnone : s.senders[pre.length]? = none := by simp [hs]
      rw [sendFrom, hnone]
      exact ⟨.refl s, [], hs, .refl _⟩
    | cons x post =>
      obtain ⟨scope, id⟩ := x
      have hsome : s.senders[pre.length]? = some (scope, id) := by simp [hs]
      obtain ⟨hid, hn⟩ := List.nodup_cons.mp hn
      -- the sender stays in the list: go on with the next one
      have hstay : ∀ s1 : Subscribers, Sends e [id] s s1 → s1.senders = s.senders →
          Sends e (id :: post.map Prod.snd) s (sendFrom e fuel (pre.length + 1) s1) ∧
            ∃ rest, (sendFrom e fuel (pre.length + 1) s1).senders = pre ++ rest ∧
              rest.Subperm ((scope, id) :: post) := by
        intro s1 h1 hsend
        have hlen : (pre ++ [(scope, id)]).length = pre.length + 1 := by simp
        obtain ⟨h2, rest, hrest, hsub⟩ := ih (pre ++ [(scope, id)]) post s1 (by simp [hsend, hs]) hn
        rw [hlen] at h2 hrest
        refine ⟨h1.cons h2 (.refl _) hid, (scope, id) :: rest, by simp [hrest], ?_⟩
        exact (List.subperm_cons _).mpr hsub
      rw [sendFrom, hsome]
      dsimp only
      split
      · cases hc : s.channels[id]? with
        | none => exact hstay s (.refl s) rfl
        | some c =>
          have hsent := Sends.trySend (e := e) hc
          dsimp only
          split
          · obtain ⟨left, hperm, hswap⟩ := swapRemove_append pre (scope, id) post
            have hkeys := hperm.map Prod.snd
            have hclosed : Sends e [id] s { s with
                channels := s.channels.set id (c.trySend e).1
                senders := swapRemove s.senders pre.length } := ⟨rfl, hsent.channel⟩
            obtain ⟨h2, rest, hrest, hsub⟩ := ih pre left
              { s with
                channels := s.channels.set id (c.trySend e).1
                senders := swapRemove s.senders pre.length }
              (by rw [← hswap, hs]) (hkeys.nodup_iff.mpr hn)
            refine ⟨hclosed.cons h2 hkeys.subset hid, rest, hrest, ?_⟩
            exact (hsub.trans hperm.subperm).trans (List.sublist_cons_self _ _).subperm
          · exact hstay _ hsent rfl
      · exact hstay s (.refl s) rfl

end Subscribers

/-! ## The invariant -/

/-- One event for every number after `since` and before `current`, in ascending order. -/
def Complete (since current : Nat) (l : List Published) : Prop :=
  l.map Published.seq = List.range' (since + 1) (current - (since + 1))

def Channel.sent (c : Channel) : List Published := c.received ++ c.queue

/-- Between any two sections, when no publisher is overtaken. -/
structure HookInv (s : Subscribers) : Prop where
  numbered : s.log.map Published.seq = List.range s.log.length
  allocated : s.log.length ≤ s.seq
  retained : s.history = Subscribers.trim s.log
  distinct : (s.senders.map Prod.snd).Nodup
  known : ∀ x ∈ s.senders, x.2 < s.channels.length
  ascending : ∀ c ∈ s.channels, c.sent.Pairwise fun a b => a.seq < b.seq
  below : ∀ c ∈ s.channels, ∀ e ∈ c.sent, e.seq < s.delivered
  answered : ∀ a ∈ s.answers, ∀ l, a.events = some l → Complete a.since a.current l

theorem HookInv.new : HookInv Subscribers.new := by
  have hnil : Subscribers.trim [] = [] := List.drop_nil
  refine ⟨rfl, Nat.le_refl _, hnil.symm, List.nodup_nil, ?_, ?_, ?_, ?_⟩ <;> intro _ h <;> cases h

theorem filter_range' {d m n : Nat} (h : d ≤ n + 1) :
    (List.range' d m).filter (fun q => n < q) = List.range' (n + 1) (d + m - (n + 1)) := by
  by_cases hm : d + m ≤ n + 1
  · rw [Nat.sub_eq_zero_of_le hm, List.range'_zero, List.filter_eq_nil_iff]
    intro q hq
    have := List.mem_range'_1.mp hq
    simp only [decide_eq_true_eq]
    omega
  · have hsplit : m = (n + 1 - d) + (d + m - (n + 1)) := by omega
    have hstart : d + (n + 1 - d) = n + 1 := by omega
    calc (List.range' d m).filter (fun q => n < q)
        = (List.range' d (n + 1 - d) ++ List.range' (n + 1) (d + m - (n + 1))).filter
            (fun q => n < q) := by
          conv_lhs => rw [hsplit, ← List.range'_append_1, hstart]
      _ = List.range' (n + 1) (d + m - (n + 1)) := by
          rw [List.filter_append, List.filter_eq_nil_iff.mpr, List.filter_eq_self.mpr,
            List.nil_append]
          · intro q hq
            have := List.mem_range'_1.mp hq
            simp only [decide_eq_true_eq]
            omega
          · intro q hq
            have := List.mem_range'_1.mp hq
            simp only [decide_eq_true_eq]
            omega

variable {s : Subscribers}

/-- An answer given while no number of its range is missing from the log is complete. -/
theorem HookInv.eventsSince (h : HookInv s) {seq : Nat}
    (hpushed : s.seq ≤ seq + 1 ∨ s.log.length = s.seq) {l : List Published}
    (hl : s.eventsSince seq = some l) : Complete seq s.seq l := by
  have halloc := h.allocated
  unfold Subscribers.eventsSince at hl
  split at hl
  · cases hl
    rw [Complete, Nat.sub_eq_zero_of_le (by omega)]
    rfl
  · have hhist : s.history.map Published.seq = List.range' (s.log.length - eventHistoryCapacity)
        (s.log.length - (s.log.length - eventHistoryCapacity)) := by
      rw [h.retained, Subscribers.trim, List.map_drop, h.numbered, List.range_eq_range',
        List.drop_range']
      simp
    split at hl
    · cases hl
    · rename_i first hfirst
      split at hl
      · cases hl
      · cases hl
        have hhead : (s.history.map Published.seq).head? = some first.seq := by
          rw [List.head?_map, hfirst]
          rfl
        have hd : s.log.length - eventHistoryCapacity = first.seq := by
          rw [hhist] at hhead
          cases hn : s.log.length - (s.log.length - eventHistoryCapacity) with
          | zero => rw [hn] at hhead; cases hhead
          | succ n => rw [hn] at hhead; exact Option.some.inj hhead
        have hcount : s.log.length - eventHistoryCapacity + (s.log.length -
            (s.log.length - eventHistoryCapacity)) - (seq + 1) = s.seq - (seq + 1) := by
          omega
        show (s.history.filter ((fun q => decide (seq < q)) ∘ Published.seq)).map _ = _
        rw [← List.filter_map, hhist, filter_range' (by omega), hcount]

theorem trim_concat (log : List Published) (e : Published) :
    Subscribers.trim (Subscribers.trim log ++ [e]) = Subscribers.trim (log ++ [e]) := by
  have hdrop : Subscribers.trim log ++ [e] =
      (log ++ [e]).drop (log.length - eventHistoryCapacity) := by
    rw [Subscribers.trim, List.drop_append_of_le_length (by omega)]
  have hcount : log.length - eventHistoryCapacity +
      ((log ++ [e]).length - (log.length - eventHistoryCapacity) - eventHistoryCapacity) =
      (log ++ [e]).length - eventHistoryCapacity := by
    rw [List.length_append, List.length_singleton]
    omega
  rw [hdrop, Subscribers.trim, List.drop_drop, List.length_drop, hcount]
  rfl

variable {e : Published}

section HookInv

variable (h : HookInv s)

include h

theorem HookInv.push (hnext : e.seq = s.log.length) (halloc : e.seq < s.seq) :
    HookInv (s.push e) := by
  have hlen : (s.log ++ [e]).length = s.log.length + 1 := by simp
  refine { h with numbered := ?_, allocated := ?_, retained := ?_ }
  · show (s.log ++ [e]).map Published.seq = List.range (s.log ++ [e]).length
    rw [hlen, List.range_succ, List.map_append, h.numbered, ← hnext]
    rfl
  · show (s.log ++ [e]).length ≤ s.seq
    omega
  · show Subscribers.trim (s.history ++ [e]) = Subscribers.trim (s.log ++ [e])
    rw [h.retained, trim_concat]

/-- A channel after a section: it may have got one more event, or lost its receiver. -/
theorem HookInv.channels {s' : Subscribers}
    (hrest : s' = { s with senders := s'.senders, channels := s'.channels, delivered := s'.delivered })
    (hdistinct : (s'.senders.map Prod.snd).Nodup)
    (hknown : ∀ x ∈ s'.senders, x.2 < s'.channels.length)
    (hsent : ∀ c' ∈ s'.channels, (c'.sent.Pairwise fun a b => a.seq < b.seq) ∧
      ∀ x ∈ c'.sent, x.seq < s'.delivered) : HookInv s' := by
  rw [hrest] at hdistinct hknown hsent ⊢
  exact { h with
    distinct := hdistinct
    known := hknown
    ascending := fun c hc => (hsent c hc).1
    below := fun c hc => (hsent c hc).2 }

theorem HookInv.sends {t : Subscribers} (hnext : e.seq = s.delivered) {ids : List Nat}
    (hsends : s.Sends e ids t) (hsub : t.senders.Subperm s.senders) :
    HookInv { t with delivered := t.delivered + 1 } := by
  obtain ⟨left, hperm, hsubl⟩ := hsub
  have hdel : t.delivered = s.delivered := by rw [hsends.rest]
  have hchan : ∀ j : Nat, t.channels[j]? = s.channels[j]? ∨ ∃ c,
      s.channels[j]? = some c ∧ t.channels[j]? = some { c with queue := c.queue ++ [e] } :=
    fun j => (hsends.channel j).imp (fun h => h) fun h => h.2
  refine h.channels ?_ ?_ ?_ ?_
  · rw [hsends.rest]
  · exact (hperm.map Prod.snd).nodup_iff.mp ((hsubl.map Prod.snd).nodup h.distinct)
  · intro x hx
    have hlt := h.known x (hsubl.subset (hperm.symm.subset hx))
    have hget : t.channels[x.2]? ≠ none := by
      rcases hchan x.2 with heq | ⟨c, -, heq⟩ <;> rw [heq]
      · simpa using hlt
      · simp
    simpa using hget
  · intro c' hc'
    rw [hdel]
    obtain ⟨j, hj⟩ := List.mem_iff_getElem?.mp hc'
    rcases hchan j with heq | ⟨c, hc, heq⟩
    · have hmem := List.mem_of_getElem? (heq.symm.trans hj)
      exact ⟨h.ascending c' hmem, fun x hx => Nat.lt_succ_of_lt (h.below c' hmem x hx)⟩
    · have hmem := List.mem_of_getElem? hc
      obtain rfl := Option.some.inj (heq.symm.trans hj)
      have hsent : Channel.sent { c with queue := c.queue ++ [e] } = c.sent ++ [e] := by
        simp [Channel.sent]
      rw [hsent]
      constructor
      · refine List.pairwise_append.mpr ⟨h.ascending c hmem, List.pairwise_singleton _ _, ?_⟩
        intro a ha b hb
        rw [List.mem_singleton.mp hb, hnext]
        exact h.below c hmem a ha
      · intro x hx
        rcases List.mem_append.mp hx with hx | hx
        · exact Nat.lt_succ_of_lt (h.below c hmem x hx)
        · rw [List.mem_singleton.mp hx, hnext]
          exact Nat.lt_succ_self _

theorem HookInv.deliver (hnext : e.seq = s.delivered) :
    HookInv (s.deliver e) ∧ (s.deliver e).seq = s.seq := by
  obtain ⟨hsends, rest, hrest, hsub⟩ :=
    Subscribers.sendFrom_spec e s.senders.length [] s.senders s rfl h.distinct
  refine ⟨h.sends hnext hsends (hrest ▸ hsub), ?_⟩
  rw [Subscribers.deliver, Subscribers.sendFrom_rest]

theorem HookInv.pushSender (scope : Scope) : HookInv (s.pushSender scope).2 := by
  refine h.channels rfl ?_ ?_ ?_
  · show ((s.senders ++ [(scope, s.channels.length)]).map Prod.snd).Nodup
    rw [List.map_append]
    refine List.nodup_append.mpr ⟨h.distinct, List.nodup_singleton _, ?_⟩
    intro id hid _ hnew heq
    obtain ⟨x, hx, rfl⟩ := List.mem_map.mp hid
    rw [List.mem_singleton.mp hnew] at heq
    exact absurd heq (Nat.ne_of_lt (h.known x hx))
  · intro x hx
    show x.2 < (s.channels ++ [_]).length
    rw [List.length_append, List.length_singleton]
    rcases List.mem_append.mp hx with hx | hx
    · exact Nat.lt_succ_of_lt (h.known x hx)
    · rw [List.mem_singleton.mp hx]
      exact Nat.lt_succ_self _
  · intro c hc
    rcases List.mem_append.mp hc with hc | hc
    · exact ⟨h.ascending c hc, h.below c hc⟩
    · rw [List.mem_singleton.mp hc]
      exact ⟨.nil, nofun⟩

theorem HookInv.set {id : Nat} {c c' : Channel} (hc : s.channels[id]? = some c)
    (hsent : c'.sent = c.sent) : HookInv { s with channels := s.channels.set id c' } := by
  refine h.channels rfl h.distinct ?_ ?_
  · intro x hx
    rw [List.length_set]
    exact h.known x hx
  · intro d hd
    rcases List.mem_or_eq_of_mem_set hd with hd | rfl
    · exact ⟨h.ascending d hd, h.below d hd⟩
    · rw [hsent]
      exact ⟨h.ascending c (List.mem_of_getElem? hc), h.below c (List.mem_of_getElem? hc)⟩

theorem HookInv.receive (id : Nat) : HookInv (s.receive id).2 := by
  unfold Subscribers.receive
  split
  · rename_i e queue received connected hc
    exact h.set hc (by simp [Channel.sent])
  · exact h

theorem HookInv.close (id : Nat) : HookInv (s.close id) := by
  unfold Subscribers.close
  split
  · rename_i c hc
    exact h.set hc rfl
  · exact h

end HookInv

/-- The number of an event that is pushed was drawn before. -/
def HookAct.Drawn {β : Type} (n : Nat) : HookAct β → Prop
  | .push e => e.seq < n
  | _ => True

variable {β : Type}

theorem HookAct.Drawn.mono {n m : Nat} {a : HookAct β} (h : a.Drawn n) (hle : n ≤ m) :
    a.Drawn m := by
  cases a with
  | push e => exact Nat.lt_of_lt_of_le h hle
  | _ => trivial

variable {w : Nat}

/-- One section keeps the invariant and never takes a number back. -/
theorem HookInv.exec {a : HookAct β} (h : HookInv s)
    (ho : InOrder w a s (execHook a s).1 (execHook a s).2) (hdrawn : a.Drawn s.seq) :
    HookInv (execHook a s).2 ∧ s.seq ≤ (execHook a s).2.seq := by
  cases a with
  | allocate =>
    exact ⟨{ h with allocated := Nat.le_succ_of_le h.allocated }, Nat.le_succ _⟩
  | push e => exact ⟨h.push ho hdrawn, Nat.le_refl s.seq⟩
  | deliver e =>
    obtain ⟨hinv, hseq⟩ := h.deliver ho
    exact ⟨hinv, Nat.le_of_eq hseq.symm⟩
  | eventsSince seq =>
    refine ⟨{ h with answered := ?_ }, Nat.le_refl s.seq⟩
    intro a ha l hl
    rcases List.mem_append.mp ha with ha | ha
    · exact h.answered a ha l hl
    · obtain rfl := List.mem_singleton.mp ha
      exact h.eventsSince ho hl
  | currentSeq => exact ⟨h, Nat.le_refl s.seq⟩
  | watchScope scope => exact ⟨h.pushSender scope, Nat.le_refl s.seq⟩
  | receive id =>
    refine ⟨h.receive id, ?_⟩
    show s.seq ≤ (s.receive id).2.seq
    unfold Subscribers.receive
    split <;> exact Nat.le_refl s.seq
  | close id =>
    refine ⟨h.close id, ?_⟩
    show s.seq ≤ (s.close id).seq
    unfold Subscribers.close
    split <;> exact Nat.le_refl s.seq

/-! ## Pools of publishers and consumers -/

/-- Numbers are only drawn, never taken back. -/
def hookRules : Rules hooks where
  Ghost := Unit
  inv s := HookInv s.1
  rely _ s s' := s.1.seq ≤ s'.1.seq
  guar _ s s' := s.1.seq ≤ s'.1.seq
  ok _ := True
  allow := InOrder
  live := True
  rely_refl _ _ := Nat.le_refl _
  rely_trans _ _ _ _ := Nat.le_trans

/-- One section of a thread. -/
theorem hookAct_safe {α : Type} {a : HookAct β} {k : β → Prog HookAct α}
    {Q : α → Subscribers × Unit → Prop} {s : Subscribers × Unit} (hdrawn : a.Drawn s.1.seq)
    (hk : ∀ s' : Subscribers, s.1.seq ≤ s'.seq →
      Safe hookRules w (k (execHook a s').1) Q ((execHook a s').2, ())) :
    Safe hookRules w (.act a k) Q s := by
  refine .act fun s' hrely hinv => ⟨fun _ _ _ => rfl, ?_⟩
  intro c r t _ hx hallow
  have hx : execHook a s'.1 = (r, t) := Option.some.inj hx
  obtain ⟨rfl, rfl⟩ := Prod.mk.inj hx
  obtain ⟨hinv', hseq⟩ := HookInv.exec hinv hallow (hdrawn.mono hrely)
  exact ⟨(), hinv', hseq, hk s'.1 hrely⟩

theorem hookNotify_safe (event : ChangeEvent) {Q : Unit → Subscribers × Unit → Prop}
    {s : Subscribers × Unit} (hQ : ∀ s', Q () s') : Safe hookRules w (notify event) Q s := by
  refine hookAct_safe trivial fun s1 _ => ?_
  -- the number drawn here stays below the next one
  refine hookAct_safe (Nat.lt_succ_self s1.seq) fun s2 _ => ?_
  exact hookAct_safe trivial fun s3 _ _ _ _ => hQ _

theorem HookCall.run_safe (c : HookCall) {Q : Unit → Subscribers × Unit → Prop}
    {s : Subscribers × Unit} (hQ : ∀ s', Q () s') : Safe hookRules w c.run Q s := by
  cases c with
  | notify event => exact hookNotify_safe event hQ
  | eventsSince seq | currentSeq | watchScope scope | receive id | close id =>
    exact hookAct_safe trivial fun _ _ _ _ _ => hQ _

theorem hookThread_safe (calls : List HookCall) (s : Subscribers × Unit) :
    Safe hookRules w (hookThread calls) (fun _ _ => True) s := by
  induction calls generalizing s with
  | nil => exact fun _ _ _ => trivial
  | cons c calls ih => exact .bind (c.run_safe ih)

theorem spawnHooks_distinct (jobs : List (List HookCall)) :
    Rules.Distinct (M := hooks) (spawnHooks jobs).threads := by
  have hnodup : ((spawnHooks jobs).threads.map Prod.fst).Nodup := by
    rw [spawnHooks, List.nodup_iff_injective_get]
    intro a b hab
    simp only [List.get_eq_getElem, List.getElem_map, List.getElem_mapIdx] at hab
    exact Fin.ext hab
  exact hnodup

/-- In every run in which no publisher is overtaken, an answer of `events_since` has one
event for each number after the one asked for, in order, and each watcher is sent
ascending numbers. -/
theorem recovery_complete (jobs : List (List HookCall)) (sched : List (Nat × Unit))
    (horder : hooks.RunMeets InOrder sched (spawnHooks jobs)) (P : hooks.Pool)
    (hrun : hooks.runPool sched (spawnHooks jobs) = some P) :
    (∀ a ∈ P.state.answers, ∀ l, a.events = some l → Complete a.since a.current l) ∧
      ∀ c ∈ P.state.channels, (c.received ++ c.queue).Pairwise fun x y => x.seq < y.seq := by
  have hthread : ∀ (j : Nat) w p, (spawnHooks jobs).threads[j]? = some (w, p) →
      Safe hookRules w p (fun _ _ => True) (.new, ()) := by
    intro j w p hj
    rw [spawnHooks, List.getElem?_mapIdx] at hj
    obtain ⟨calls, -, heq⟩ := Option.map_eq_some_iff.mp hj
    cases heq
    exact hookThread_safe calls _
  obtain ⟨_, hsafe, -⟩ := hookRules.runPool_safe (fun _ _ _ _ _ h => h) (Q := fun _ _ => True)
    sched (g := ()) (spawnHooks_distinct jobs) ⟨HookInv.new, hthread⟩ (fun _ _ => trivial) hrun horder
  exact ⟨hsafe.1.answered, hsafe.1.ascending⟩

/-- `InOrder` as a test. -/
def inOrderTest {β : Type} (_ : Nat) (a : HookAct β) (s : Subscribers) : Bool :=
  match a with
  | .push e => e.seq = s.log.length
  | .deliver e => e.seq = s.delivered
  | .eventsSince seq => s.seq ≤ seq + 1 ∨ s.log.length = s.seq
  | _ => true

theorem inOrder_of_test (w : Nat) (a : HookAct β) (s : Subscribers) (r : β) (s' : Subscribers)
    (h : inOrderTest w a s = true) : InOrder w a s r s' := by
  cases a <;> simp_all [inOrderTest, InOrder]

/-- A watcher and two publishers of one event each, and a consumer that resumes after
number 0. -/
def twoPublishers : List (List HookCall) :=
  [[.watchScope .all, .notify ⟨"a", .set, none, some [1]⟩], [.notify ⟨"b", .set, none, some [2]⟩],
    [.eventsSince 0]]

def steps (threads : List Nat) : List (Nat × Unit) := threads.map fun j => (j, ())

set_option maxRecDepth 10000 in
theorem recovery_complete_in_turn : ∃ P, hooks.runPool (steps [0, 0, 0, 0, 1, 1, 1, 2])
      (spawnHooks twoPublishers) = some P ∧
    (∃ l, ⟨0, 2, some l⟩ ∈ P.state.answers ∧ Complete 0 2 l) ∧
    ∀ c ∈ P.state.channels, (c.received ++ c.queue).Pairwise fun x y => x.seq < y.seq := by
  have heval : (hooks.runPool (steps [0, 0, 0, 0, 1, 1, 1, 2]) (spawnHooks twoPublishers)).map
      (fun P => P.state.answers) = some [⟨0, 2, some [⟨⟨"b", .set, none, some [2]⟩, 1⟩]⟩] := by
    decide +kernel
  have horder : hooks.passes inOrderTest (steps [0, 0, 0, 0, 1, 1, 1, 2])
      (spawnHooks twoPublishers) = true := by decide +kernel
  obtain ⟨P, hP, hanswers⟩ := Option.map_eq_some_iff.mp heval
  have hmem : ⟨0, 2, some [⟨⟨"b", .set, none, some [2]⟩, 1⟩]⟩ ∈ P.state.answers := by
    rw [hanswers]
    exact List.mem_singleton_self _
  obtain ⟨hcomplete, hascending⟩ := recovery_complete twoPublishers _
    (.of_passes inOrder_of_test horder) P hP
  exact ⟨P, hP, ⟨_, hmem, hcomplete _ hmem _ rfl⟩, hascending⟩

set_option maxRecDepth 10000 in
/-- The second publisher draws number 1 and is asked for before it pushes it; then it
reaches the watcher before the first. -/
theorem recovery_skips_number : ∃ P, hooks.runPool (steps [0, 0, 0, 1, 2, 1, 1, 0])
      (spawnHooks twoPublishers) = some P ∧
    (⟨0, 2, some []⟩ ∈ P.state.answers ∧ ¬ Complete 0 2 []) ∧
    ∃ c ∈ P.state.channels, c.queue.map Published.seq = [1, 0] := by
  have heval : (hooks.runPool (steps [0, 0, 0, 1, 2, 1, 1, 0]) (spawnHooks twoPublishers)).map
      (fun P => (P.state.answers, P.state.channels.map fun c => c.queue.map Published.seq)) =
      some ([⟨0, 2, some []⟩], [[1, 0]]) := by
    decide +kernel
  obtain ⟨P, hP, hstate⟩ := Option.map_eq_some_iff.mp heval
  obtain ⟨hanswers, hchannels⟩ := Prod.mk.inj hstate
  refine ⟨P, hP, ⟨by simp [hanswers], by unfold Complete; decide⟩, ?_⟩
  have hmem : [1, 0] ∈ P.state.channels.map fun c => c.queue.map Published.seq := by
    simp [hchannels]
  exact List.mem_map.mp hmem

end OxKv
