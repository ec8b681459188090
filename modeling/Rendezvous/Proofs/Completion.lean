import Rendezvous.Proofs.Fates
import Rendezvous.Proofs.Transfer

/-! # The completion of a receive

A message, an interrupt or a timeout ends the wait of a process, whichever comes first. From then on the process is
as if the others had never been: it keeps what it has got, and no deadline is left that could pass. -/

namespace Rendezvous

/-- What ends the wait of a process. -/
inductive Cause where
  | message (src : Pid) (msg : Message)
  | interrupt
  | timeout

/-- What the process gets. -/
def Cause.gives : Cause → Message
  | message src msg => { msg with sender := src }
  | interrupt => .new .interrupt
  | timeout => .new .timeout

namespace Step

/-- The call of the step is such a cause for `p`, who receives with `filter`: it sends `p` a message or an interrupt
that the filter accepts, or it is a tick after the deadline of `p`. -/
def Brings (s : Step) (p : Pid) (filter : MessageType) : Cause → Prop
  | .message src msg => s.Posts src p msg ∧ filter.accepts msg.ty = true
  | .interrupt => s.signal? = some p ∧ filter.accepts .interrupt = true
  | .timeout => ∃ ms due, s.request? = some (.tick ms) ∧ (s.before.process? p).bind (·.deadline) = some due ∧
      due < s.before.timeouts.ticks

/-- One event of the step puts `msg` into the slot of `p`, and no other one puts anything there. -/
def Writes (s : Step) (p : Pid) (msg : Message) : Prop :=
  ∃ pre e post, s.events = pre ++ e :: post ∧ e.fill? = some (p, msg) ∧
    ∀ e' ∈ pre ++ post, ∀ m, e'.fill? ≠ some (p, m)

theorem Writes.fills {s : Step} {p : Pid} {msg : Message} (h : s.Writes p msg) : s.Fills p := by
  obtain ⟨pre, e, post, hevents, hfill, -⟩ := h
  exact ⟨e, hevents ▸ List.mem_append_right _ List.mem_cons_self, msg, hfill⟩

end Step

namespace Kernel

/-- The process waits, with a deadline and an entry for it in the registry or without. -/
def Receives (k : Kernel) (p : Pid) (filter : MessageType) (timed : Bool) : Prop :=
  ∃ d, k.process? p = some d ∧ d.state = .receiving ∧ d.filter = filter ∧ d.slot = none ∧ d.deadline.isSome = timed ∧
    (p ∈ k.timeouts.entries ↔ timed = true)

/-- The process has got `msg`. It runs or is in the ready queue of its priority, and has neither a deadline nor an
entry in the registry. -/
def Received (k : Kernel) (p : Pid) (msg : Message) : Prop :=
  ∃ d, k.process? p = some d ∧ d.state = .active ∧
    (p ≠ k.current → ∃ l, d.priority.level? = some l ∧ k.Queued p (.ready l)) ∧
    d.slot = some msg ∧ d.deadline = none ∧ p ∉ k.timeouts.entries

variable {k : Kernel} {p : Pid} {a : Stance} {filter : MessageType} {msg : Message}

/-- The registry has the processes that have a deadline. -/
theorem Boxed.mem_entries (h : k.Boxed) (ha : k.stance p = some a) : p ∈ k.timeouts.entries ↔ a.deadline.isSome := by
  obtain ⟨P, hk, hrest, -⟩ := h
  rw [← hk.stance] at ha
  obtain ⟨d, hd, rfl⟩ := Plain.stance_eq_some ha
  rw [← hk.timeouts, hrest.sound.entry]
  exact ⟨fun ⟨e, he, hdead⟩ => Option.some_inj.mp (he.symm.trans hd) ▸ hdead, fun hdead => ⟨d, hd, hdead⟩⟩

theorem Boxed.receives (h : k.Boxed) (ha : k.stance p = some a) (hs : a.state = .receiving) :
    k.Receives p a.filter a.deadline.isSome := by
  have hentry := h.mem_entries ha
  obtain ⟨d, hd, rfl⟩ := stance_eq_some ha
  exact ⟨d, hd, hs, rfl, (h.inRoles.receiving p d hd hs).2, rfl, hentry⟩

theorem Boxed.received (h : k.Boxed) (ha : k.stance p = some a) (hs : a.state = .active) (hm : a.slot = some msg)
    (hd : a.deadline = none) : k.Received p msg := by
  have hentry := h.mem_entries ha
  rw [hd] at hentry
  obtain ⟨d, hp, rfl⟩ := stance_eq_some ha
  exact ⟨d, hp, hs, h.ready hp hs, hm, hd, fun hin => nomatch hentry.mp hin⟩

theorem Receives.stance (h : k.Receives p filter timed) :
    ∃ a, k.stance p = some a ∧ a.state = .receiving ∧ a.filter = filter ∧ a.deadline.isSome = timed := by
  obtain ⟨d, hd, hs, hf, -, ht, -⟩ := h
  exact ⟨d.stance, stance_eq hd, hs, hf, ht⟩

theorem Received.stance (h : k.Received p msg) :
    ∃ a, k.stance p = some a ∧ a.state = .active ∧ a.slot = some msg ∧ a.deadline = none := by
  obtain ⟨d, hd, hs, -, hm, hnone, -⟩ := h
  exact ⟨d.stance, stance_eq hd, hs, hm, hnone⟩

end Kernel

/-- From step `i` to step `j` nothing is put into the slot of `p`. -/
def Untouched (steps : List Step) (p : Pid) (i j : Nat) : Prop :=
  ∀ t u, i ≤ t → t ≤ j → steps[t]? = some u → ¬u.Fills p

/-- From step `i` to step `j` only step `t` puts anything into the slot of `p`, which ends its wait. -/
structure Ended (steps : List Step) (p : Pid) (filter : MessageType) (i j t : Nat) (cause : Cause) : Prop where
  range : i ≤ t ∧ t ≤ j
  step : ∃ u, steps[t]? = some u ∧ u.Brings p filter cause ∧ u.Writes p cause.gives ∧ u.after.Received p cause.gives
  only : ∀ v u, i ≤ v → v ≤ j → steps[v]? = some u → u.Fills p → v = t

/-- What becomes of the receive with which `p` blocks in step `i`, until `p` runs again. -/
structure Completion (steps : List Step) (i : Nat) (p : Pid) (filter : MessageType) (timeout : Option UInt32) : Prop where
  waits : ∀ j s, i ≤ j → steps[j]? = some s → Aside steps p i j → Untouched steps p i j →
    s.after.Receives p filter timeout.isSome
  /-- At most one step puts anything into the slot of `p`. -/
  once : ∀ j j' s s', i ≤ j → i ≤ j' → steps[j]? = some s → steps[j']? = some s' → Aside steps p i j →
    Aside steps p i j' → s.Fills p → s'.Fills p → j = j'
  /-- That step has exactly one cause, puts what it gives into the slot and ends the wait. -/
  cause : ∀ j s, i ≤ j → steps[j]? = some s → Aside steps p i j → s.Fills p →
    ∃ cause, (∀ c, s.Brings p filter c ↔ c = cause) ∧ s.Writes p cause.gives ∧ s.after.Received p cause.gives
  /-- While `p` waits, no message and no interrupt that its filter accepts is missed. -/
  prompt : ∀ j s cause, i < j → steps[j]? = some s → Aside steps p i j → s.before.state? p = some .receiving →
    s.Brings p filter cause → cause ≠ .timeout → s.Fills p
  keeps : ∀ j j' s s', i ≤ j → j ≤ j' → steps[j]? = some s → steps[j']? = some s' → Aside steps p i j' → s.Fills p →
    ∃ msg, s.after.Received p msg ∧ s'.after.Received p msg
  /-- A later interrupt becomes pending and does nothing else to `p`. -/
  pending : ∀ j j' s s', i ≤ j → j < j' → steps[j]? = some s → steps[j']? = some s' → Aside steps p i j' → s.Fills p →
    s'.signal? = some p → s'.after.stance p = (s'.before.stance p).map fun a => { a with pending := true }
  /-- No deadline is left for a later tick, even after `p` has run, as long as it does not receive again. -/
  stale : ∀ j j' s s', i ≤ j → j ≤ j' → steps[j]? = some s → steps[j']? = some s' → Aside steps p i j → s.Fills p →
    (∀ t u, j < t → t ≤ j' → steps[t]? = some u → u.before.current = p → ∀ f ms, u.request? ≠ some (.receive f ms)) →
      (s'.after.stance p).bind (·.deadline) = none ∧ p ∉ s'.after.timeouts.entries ∧
        (j < j' → ∀ ms, s'.request? = some (.tick ms) → s'.after.stance p = s'.before.stance p)

namespace Run

variable {config : Config} {steps : List Step} {k : Kernel} {i j : Nat} {s s' : Step} {p src : Pid} {msg : Message}
  {filter : MessageType} {timed : Bool} {cause cause' : Cause}

section
variable (h : Run Call.Admissible config steps k)
include h

/-- A process posts what its request carries. -/
theorem posts_iff (hs : steps[i]? = some s) :
    s.Posts src p msg ↔ s.before.current = src ∧ ∃ r, s.request? = some r ∧ r.outgoing? = some (p, msg) := by
  constructor
  · rintro ⟨hcur, register, hl, hr | hr⟩
    · exact ⟨hcur, _, hr, by rw [h.lookup_named hs hl]; rfl⟩
    · exact ⟨hcur, _, hr, by rw [h.lookup_named hs hl]; rfl⟩
  · rintro ⟨hcur, r, hr, hout⟩
    have hchecked := Kernel.call_checked (h.step hs).2.2 r hr
    cases r with
    | send register m =>
      obtain ⟨rfl, rfl⟩ := Prod.mk.inj (Option.some_inj.mp hout)
      obtain ⟨q, hq⟩ := hchecked
      exact ⟨hcur, register, h.lookup_named hs hq ▸ hq, .inl hr⟩
    | sendRec register m =>
      obtain ⟨rfl, rfl⟩ := Prod.mk.inj (Option.some_inj.mp hout)
      obtain ⟨⟨q, hq⟩, -⟩ := hchecked
      exact ⟨hcur, register, h.lookup_named hs hq ▸ hq, .inr hr⟩
    | _ => cases hout

/-- No step brings two causes. -/
theorem brings_unique (hs : steps[i]? = some s) (hc : s.Brings p filter cause) (hc' : s.Brings p filter cause') :
    cause = cause' := by
  -- A step is a request or a signal, never both.
  have hsignal : ∀ r, s.request? = some r → s.signal? ≠ some p := fun r hr hp => by
    cases (Call.signal?_of_request hr s.before.lines).symm.trans hp
  cases cause with
  | message src msg =>
    obtain ⟨hcur, r, hr, hout⟩ := (h.posts_iff hs).mp hc.1
    cases cause' with
    | message src' msg' =>
      obtain ⟨hcur', r', hr', hout'⟩ := (h.posts_iff hs).mp hc'.1
      obtain rfl := Option.some_inj.mp (hr.symm.trans hr')
      obtain ⟨-, rfl⟩ := Prod.mk.inj (Option.some_inj.mp (hout.symm.trans hout'))
      rw [← hcur, ← hcur']
    | interrupt => exact absurd hc'.1 (hsignal r hr)
    | timeout =>
      obtain ⟨ms, due, hr', -⟩ := hc'
      obtain rfl := Option.some_inj.mp (hr.symm.trans hr')
      cases hout
  | interrupt =>
    cases cause' with
    | message src' msg' =>
      obtain ⟨-, r', hr', -⟩ := (h.posts_iff hs).mp hc'.1
      exact absurd hc.1 (hsignal r' hr')
    | interrupt => rfl
    | timeout =>
      obtain ⟨ms, due, hr', -⟩ := hc'
      exact absurd hc.1 (hsignal _ hr')
  | timeout =>
    obtain ⟨ms, due, hr, -⟩ := hc
    cases cause' with
    | message src' msg' =>
      obtain ⟨-, r', hr', hout'⟩ := (h.posts_iff hs).mp hc'.1
      obtain rfl := Option.some_inj.mp (hr.symm.trans hr')
      cases hout'
    | interrupt => exact absurd hc'.1 (hsignal _ hr)
    | timeout => rfl

/-! ### One step -/

/-- Nothing is put into the slot of a process that waits after the step. -/
theorem not_fills_of_receives (hs : steps[i]? = some s) (hr : s.after.Receives p filter timed) : ¬s.Fills p := by
  rintro ⟨e, he, m, hfill⟩
  obtain ⟨a, ha, hstate, -⟩ := hr.stance
  cases ((h.path hs).filled he hfill).symm.trans ((h.after_boxed hs).box_of_receiving ha hstate)

/-- A process that has got something keeps it. -/
theorem received_step (hs : steps[i]? = some s) (hr : s.before.Received p msg) (hp : p ≠ s.before.current) :
    s.after.Received p msg ∧ ¬s.Fills p := by
  obtain ⟨a, ha, hstate, hm, hd⟩ := hr.stance
  obtain ⟨_, -, -, -, hfates⟩ := h.fates hs
  obtain ⟨a', ha', hfate, -⟩ := hfates p a ha
  obtain ⟨hstate', hslot⟩ := (hfate hp).of_active hstate
  refine ⟨(h.after_boxed hs).received ha' hstate' (hslot.trans hm) ((hfate hp).deadline hd), ?_⟩
  rintro ⟨e, he, m, hfill⟩
  have hopen : s.opening p = .keeping (some msg) := by
    rw [Step.opening_of_ne hp, Kernel.box_of_active ha hstate, hm]
  exact (h.path hs).not_filled hopen he m hfill

/-- What ends the wait of a process is written into its slot. -/
theorem writes_of_got (hs : steps[i]? = some s) {a : Stance} (ha : s.before.stance p = some a)
    (hstate : a.state = .receiving) (hp : p ≠ s.before.current) (ha' : s.after.stance p = some (a.got msg)) :
    s.Writes p msg ∧ s.after.Received p msg := by
  have hboxed := (h.step hs).1.boxed
  have hempty : s.opening p ≠ .keeping (some msg) := by
    rw [Step.opening_of_ne hp, hboxed.box_of_receiving ha hstate]
    simp
  obtain ⟨e, he, hfill⟩ := ((h.path hs).kept (Kernel.box_of_active ha' rfl)).resolve_left hempty
  obtain ⟨pre, post, hevents, honly⟩ := (h.path hs).fills_once he hfill
  exact ⟨⟨pre, e, post, hevents, hfill, honly⟩, (h.after_boxed hs).received ha' rfl rfl rfl⟩

/-- A process that waits goes on to do so, or a cause ends its wait. -/
theorem receives_step (hs : steps[i]? = some s) (hr : s.before.Receives p filter timed) (hp : p ≠ s.before.current) :
    s.after.Receives p filter timed ∨
      ∃ cause, s.Brings p filter cause ∧ s.Writes p cause.gives ∧ s.after.Received p cause.gives := by
  obtain ⟨a, ha, hstate, rfl, rfl⟩ := hr.stance
  obtain ⟨P, hk, -, -, hfates⟩ := h.fates hs
  obtain ⟨a', ha', hfate, -⟩ := hfates p a ha
  have hgot : ∀ m, a' = a.got m → s.Writes p m ∧ s.after.Received p m := fun m hm =>
    h.writes_of_got hs ha hstate hp (hm ▸ ha')
  rcases (hfate hp).of_receiving hstate with ⟨hs', hf, -, hd⟩ | ⟨r, m, hreq, hout, hacc, hm⟩ | ⟨hsig, hacc, hm⟩ |
    ⟨ms, due, hreq, hdue, hpassed, hm⟩
  · have hstill := (h.after_boxed hs).receives ha' hs'
    rw [hf, hd] at hstill
    exact .inl hstill
  · rw [hk.current] at hm
    exact .inr ⟨.message s.before.current m, ⟨(h.posts_iff hs).mpr ⟨rfl, r, hreq, hout⟩, hacc⟩, hgot _ hm⟩
  · rw [hk.lines] at hsig
    exact .inr ⟨.interrupt, ⟨hsig, hacc⟩, hgot _ hm⟩
  · obtain ⟨d, hd, rfl⟩ := Kernel.stance_eq_some ha
    rw [hk.timeouts] at hpassed
    exact .inr ⟨.timeout, ⟨ms, due, hreq, by rw [hd]; exact hdue, hpassed⟩, hgot _ hm⟩

/-- A message or an interrupt that a process waits for is not missed. -/
theorem fills_of_brings (hs : steps[i]? = some s) (hr : s.before.Receives p filter timed) (hp : p ≠ s.before.current)
    (hb : s.Brings p filter cause) (hc : cause ≠ .timeout) : s.Fills p := by
  rcases h.receives_step hs hr hp with hstill | ⟨cause', -, hwrites, -⟩
  · obtain ⟨a, ha, hstate, hfilter, -⟩ := hr.stance
    obtain ⟨P, hk, -, -, hfates⟩ := h.fates hs
    obtain ⟨a', ha', hfate, -⟩ := hfates p a ha
    obtain ⟨b, hb', hstate', hfilter', -⟩ := hstill.stance
    obtain rfl := Option.some_inj.mp (hb'.symm.trans ha')
    cases cause with
    | message src msg =>
      obtain ⟨-, r, hreq, hout⟩ := (h.posts_iff hs).mp hb.1
      -- Had it been left waiting, it would have refused a message that its filter accepts.
      have hrefused := (hfate hp).unsent hstate' hreq hout
      rw [Stance.accepts_of_receiving hstate', hfilter'] at hrefused
      cases hb.2.symm.trans hrefused
    | interrupt =>
      have hsignal : s.call.signal? P.lines = some p := by rw [hk.lines]; exact hb.1
      rcases (hfate hp).of_signal hsignal with ⟨-, rfl⟩ | ⟨hrefused, -⟩
      · cases hstate'
      · rw [Stance.accepts_of_receiving hstate, hfilter] at hrefused
        cases hb.2.symm.trans hrefused
    | timeout => exact absurd rfl hc
  · exact hwrites.fills

/-! ### A run -/

/-- A receive that leaves its process waiting has found nothing. -/
theorem receives_after (hs : steps[i]? = some s) {timeout : Option UInt32}
    (hr : s.request? = some (.receive filter timeout)) (hw : s.after.state? s.before.current = some .receiving) :
    s.after.Receives s.before.current filter timeout.isSome := by
  obtain ⟨a, ha⟩ := h.stance_of_current hs
  obtain ⟨P, hk, hrest, -, hfates⟩ := h.fates hs
  obtain ⟨a', ha', -, hturn⟩ := hfates _ a ha
  have hactive := (hrest.stance_current (by rw [hk.stance, hk.current, ha])).2.1
  rw [Kernel.state?_eq ha'] at hw
  have hs' := Option.some_inj.mp hw
  obtain ⟨hf, -, hd⟩ := (hturn rfl).of_receive hr hactive hs'
  have hreceives := (h.after_boxed hs).receives ha' hs'
  rwa [hf, hd] at hreceives

/-- As long as `p` does not run it waits and nothing has been put into its slot, or a step has ended the wait and
nothing else has been put there. -/
theorem receives_until (hs : steps[i]? = some s) (hr : s.after.Receives p filter timed) (hij : i ≤ j)
    (hs' : steps[j]? = some s') (ha : Aside steps p i j) :
    (s'.after.Receives p filter timed ∧ Untouched steps p i j) ∨
      ∃ t cause, Ended steps p filter i j t cause ∧ s'.after.Received p cause.gives := by
  refine h.carry (Q := fun j k => (k.Receives p filter timed ∧ Untouched steps p i j) ∨
      ∃ t cause, Ended steps p filter i j t cause ∧ k.Received p cause.gives)
    hs (.inl ⟨hr, fun t u hit hti hu => ?_⟩) (fun j u hij hu hne hq => ?_) hij hs' ha
  · obtain rfl := Nat.le_antisymm hti hit
    obtain rfl := Option.some_inj.mp (hs.symm.trans hu)
    exact h.not_fills_of_receives hs hr
  · rcases hq with ⟨hr, hnone⟩ | ⟨t, cause, hend, hr⟩
    · rcases h.receives_step hu hr hne.symm with hr | ⟨cause, hbrings, hwrites, hgot⟩
      · -- Still waiting: no step up to now has filled the slot.
        refine .inl ⟨hr, fun t v hit htj hv => ?_⟩
        rcases Nat.le_succ_iff.mp htj with htj | rfl
        · exact hnone t v hit htj hv
        · obtain rfl := Option.some_inj.mp (hu.symm.trans hv)
          exact h.not_fills_of_receives hu hr
      · refine .inr ⟨j + 1, cause, ⟨⟨Nat.le_succ_of_le hij, Nat.le_refl _⟩, ⟨u, hu, hbrings, hwrites, hgot⟩,
          fun v w hiv hvj hw hfill => ?_⟩, hgot⟩
        rcases Nat.le_succ_iff.mp hvj with hvj | rfl
        · exact absurd hfill (hnone v w hiv hvj hw)
        · rfl
    · -- The wait is over: what follows leaves the slot alone.
      obtain ⟨hr, hnone⟩ := h.received_step hu hr hne.symm
      refine .inr ⟨t, cause, ⟨⟨hend.range.1, Nat.le_succ_of_le hend.range.2⟩, hend.step,
        fun v w hiv hvj hw hfill => ?_⟩, hr⟩
      rcases Nat.le_succ_iff.mp hvj with hvj | rfl
      · exact hend.only v w hiv hvj hw hfill
      · obtain rfl := Option.some_inj.mp (hu.symm.trans hw)
        exact absurd hfill hnone

/-- A step that puts something into the slot of `p` has ended its wait. -/
theorem ended (hs : steps[i]? = some s) (hr : s.after.Receives p filter timed) {u : Step} {t : Nat} (hit : i ≤ t)
    (htj : t ≤ j) (hu : steps[t]? = some u) (hs' : steps[j]? = some s') (ha : Aside steps p i j) (hfill : u.Fills p) :
    ∃ cause, Ended steps p filter i j t cause ∧ s'.after.Received p cause.gives := by
  rcases h.receives_until hs hr (Nat.le_trans hit htj) hs' ha with ⟨-, hnone⟩ | ⟨v, cause, hend, hgot⟩
  · exact absurd hfill (hnone t u hit htj hu)
  · obtain rfl := hend.only t u hit htj hu hfill
    exact ⟨cause, hend, hgot⟩

/-- An interrupt for a process that has got something becomes pending. -/
theorem received_pending (hs : steps[j]? = some s) (hr : s.before.Received p msg) (hp : p ≠ s.before.current)
    (hsignal : s.signal? = some p) :
    s.after.stance p = (s.before.stance p).map fun a => { a with pending := true } := by
  obtain ⟨a, ha, hstate, -⟩ := hr.stance
  obtain ⟨P, hk, -, -, hfates⟩ := h.fates hs
  obtain ⟨a', ha', hfate, -⟩ := hfates p a ha
  rw [Step.signal?, ← hk.lines] at hsignal
  rcases (hfate hp).of_signal hsignal with ⟨hacc, -⟩ | ⟨-, rfl⟩
  · cases hstate.symm.trans (Stance.receiving_of_accepts hacc)
  · rw [ha, ha', Option.map_some]

/-- A process without a deadline gets none but in its own receives, and a tick leaves it as it is. -/
theorem timeless_step (hs : steps[j]? = some s) {a : Stance} (ha : s.before.stance p = some a)
    (hd : a.deadline = none) : ∃ a', s.after.stance p = some a' ∧
      ((s.before.current = p → ∀ f ms, s.request? ≠ some (.receive f ms)) → a'.deadline = none) ∧
      ∀ ms, s.request? = some (.tick ms) → a' = a := by
  obtain ⟨P, -, -, -, hfates⟩ := h.fates hs
  obtain ⟨a', ha', hfate, hturn⟩ := hfates p a ha
  refine ⟨a', ha', ?_⟩
  by_cases hp : p = s.before.current
  · exact ⟨fun hnone => (hturn hp).deadline (hnone hp.symm) hd, fun ms hr => (hturn hp).of_tick hr⟩
  · exact ⟨fun _ => (hfate hp).deadline hd, fun ms hr => (hfate hp).of_tick hr hd⟩

/-- No deadline comes back until the process receives again. -/
theorem timeless (hs : steps[i]? = some s) (hr : s.after.Received p msg) (hij : i ≤ j) (hs' : steps[j]? = some s')
    (hnone : ∀ t u, i < t → t ≤ j → steps[t]? = some u → u.before.current = p →
      ∀ f ms, u.request? ≠ some (.receive f ms)) :
    ∃ a, s'.after.stance p = some a ∧ a.deadline = none := by
  refine h.carry (Q := fun _ k => ∃ a, k.stance p = some a ∧ a.deadline = none) hs ?_ (fun t u _ hu hpass hq => ?_)
    hij hs' hnone
  · obtain ⟨a, ha, -, -, hd⟩ := hr.stance
    exact ⟨a, ha, hd⟩
  · obtain ⟨a, ha, hd⟩ := hq
    obtain ⟨a', ha', hd', -⟩ := h.timeless_step hu ha hd
    exact ⟨a', ha', hd' hpass⟩

/-- Until it runs again, a process that blocks in a receive is as a completion tells. -/
theorem completion (hs : steps[i]? = some s) {timeout : Option UInt32}
    (hr : s.after.Receives p filter timeout.isSome) : Completion steps i p filter timeout where
  waits j u hij hu ha hnone := by
    rcases h.receives_until hs hr hij hu ha with ⟨hr, -⟩ | ⟨t, cause, hend, -⟩
    · exact hr
    · obtain ⟨v, hv, -, hwrites, -⟩ := hend.step
      exact absurd hwrites.fills (hnone t v hend.range.1 hend.range.2 hv)
  once j j' u u' hij hij' hu hu' ha ha' hfill hfill' := by
    -- The earlier of the two steps has ended the wait, and none up to the later one fills the slot again.
    rcases Nat.le_total j j' with hle | hle
    · obtain ⟨cause, hend, -⟩ := h.ended hs hr hij' (Nat.le_refl j') hu' hu' ha' hfill'
      exact hend.only j u hij hle hu hfill
    · obtain ⟨cause, hend, -⟩ := h.ended hs hr hij (Nat.le_refl j) hu hu ha hfill
      exact (hend.only j' u' hij' hle hu' hfill').symm
  cause j u hij hu ha hfill := by
    obtain ⟨cause, hend, -⟩ := h.ended hs hr hij (Nat.le_refl j) hu hu ha hfill
    obtain ⟨v, hv, hbrings, hwrites, hgot⟩ := hend.step
    obtain rfl := Option.some_inj.mp (hu.symm.trans hv)
    refine ⟨cause, fun c => ⟨fun hc => h.brings_unique hu hc hbrings, ?_⟩, hwrites, hgot⟩
    rintro rfl
    exact hbrings
  prompt j u cause hij hu ha hw hb hc := by
    obtain ⟨t, v, hit, rfl, hv, hbefore⟩ := h.before_of_lt hij hu
    rcases h.receives_until hs hr hit hv (ha.mono (Nat.le_succ t)) with ⟨hr, -⟩ | ⟨-, cause', -, hgot⟩
    · exact h.fills_of_brings hu (hbefore ▸ hr) (ha _ u hij (Nat.le_refl _) hu).symm hb hc
    · obtain ⟨a, ha, hstate, -⟩ := hgot.stance
      rw [hbefore, Kernel.state?_eq ha, hstate] at hw
      cases hw
  keeps j j' u u' hij hjj hu hu' ha hfill := by
    obtain ⟨cause, hend, hkept⟩ := h.ended hs hr hij hjj hu hu' ha hfill
    obtain ⟨v, hv, -, -, hgot⟩ := hend.step
    obtain rfl := Option.some_inj.mp (hu.symm.trans hv)
    exact ⟨cause.gives, hgot, hkept⟩
  pending j j' u u' hij hjj hu hu' ha hfill hsignal := by
    obtain ⟨t, v, hjt, rfl, hv, hb⟩ := h.before_of_lt hjj hu'
    obtain ⟨cause, -, hkept⟩ := h.ended hs hr hij hjt hu hv (ha.mono (Nat.le_succ t)) hfill
    have hne := ha _ u' (Nat.lt_of_le_of_lt hij hjj) (Nat.le_refl _) hu'
    exact h.received_pending hu' (hb ▸ hkept) hne.symm hsignal
  stale j j' u u' hij hjj hu hu' ha hfill hnone := by
    obtain ⟨cause, -, hgot⟩ := h.ended hs hr hij (Nat.le_refl j) hu hu ha hfill
    obtain ⟨a, ha, hd⟩ := h.timeless hu hgot hjj hu' hnone
    refine ⟨by rw [ha, Option.bind_some, hd], ?_, fun hlt ms hreq => ?_⟩
    · rw [(h.after_boxed hu').mem_entries ha, hd]
      simp
    · obtain ⟨t, v, hjt, rfl, hv, hb⟩ := h.before_of_lt hlt hu'
      obtain ⟨b, hb', hd'⟩ := h.timeless hu hgot hjt hv fun x w hjx hxt => hnone x w hjx (Nat.le_succ_of_le hxt)
      rw [← hb] at hb'
      obtain ⟨b', ha', -, htick⟩ := h.timeless_step hu' hb' hd'
      rw [ha', hb', htick ms hreq]

end

end Run

/-- A receive that blocks completes at most once before its process runs again, by exactly one cause. -/
theorem receive_completes_once {config : Config} {steps : List Step} {k : Kernel}
    (h : Run Call.Admissible config steps k) {i : Nat} {s : Step} (hs : steps[i]? = some s) {filter : MessageType}
    {timeout : Option UInt32} (hr : s.request? = some (.receive filter timeout))
    (hw : s.after.state? s.before.current = some .receiving) : Completion steps i s.before.current filter timeout :=
  h.completion hs (h.receives_after hs hr hw)

/-- A message that comes before the deadline of its receiver, and ticks that go past the deadline. -/
def overtakingCalls : List Call :=
  [.start "wait" 0 0 0, .start "send" 0 0 0, .launch, .serve (.receive .any (some 5)),
    .serve (.send 1 (.withInt ⟨16⟩ 7)), .serve (.tick 6), .serve (.tick 1), .takeMessage ⟨1⟩]

/-- What comes of the message and the ticks. -/
def overtaking : List Step × Kernel :=
  ((Kernel.boot {}).follow Call.Admissible overtakingCalls).get (by decide +kernel)

theorem receive_completes_once_overtaking :
    ∃ s, overtaking.1[3]? = some s ∧ s.request? = some (.receive .any (some 5)) ∧
      s.after.state? s.before.current = some .receiving ∧ Completion overtaking.1 3 s.before.current .any (some 5) := by
  have hrun : Run Call.Admissible {} overtaking.1 overtaking.2 := Run.of_boot (Option.some_get _).symm
  have hblocks : overtaking.1[3]?.map (fun s => (s.request?, s.after.state? s.before.current)) =
      some (some (.receive .any (some 5)), some .receiving) := by decide +kernel
  obtain ⟨s, hs, heq⟩ := Option.map_eq_some_iff.mp hblocks
  obtain ⟨hr, hw⟩ := Prod.mk.inj heq
  exact ⟨s, hs, hr, hw, receive_completes_once hrun hs hr hw⟩

end Rendezvous
