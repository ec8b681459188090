import Rendezvous.Proofs.Arrivals
import Rendezvous.Proofs.Prompt

/-! # The order of waiting lists

A waiting list tells which messages have been sent to a process and not taken, from the earliest one on. The process
takes the earliest one that it accepts, and the others stay in their order. -/

namespace Rendezvous

/-- In step `i` the process `src` sends `msg` to `dest` and is blocked, and the message has not been taken since. -/
structure Pending (steps : List Step) (i : Nat) (src dest : Pid) (msg : Message) : Prop where
  blocks : ∃ s, steps[i]? = some s ∧ s.Posts src dest msg ∧
    (s.after.state? src = some .sending ∨ s.after.state? src = some .sendRec)
  untaken : ∀ t, ¬Delivery steps src i t

/-- The members of the waiting list of `dest` are the senders of the messages to it that are pending, from the earliest
    one on. -/
def InArrivalOrder (steps : List Step) (dest : Pid) (members : List Pid) : Prop :=
  ∃ calls : List Nat, calls.Pairwise (· < ·) ∧ (∀ i, i ∈ calls ↔ ∃ src msg, Pending steps i src dest msg) ∧
    List.Forall₂ (fun i src => ∃ msg, Pending steps i src dest msg) calls members

/-- Of the pending messages to `dest` that the filter accepts, that of step `i` is the earliest one. -/
structure Earliest (steps : List Step) (filter : MessageType) (i : Nat) (src dest : Pid) (msg : Message) : Prop where
  pending : Pending steps i src dest msg
  accepted : filter.accepts msg.ty = true
  first : ∀ i' src' msg', Pending steps i' src' dest msg' → filter.accepts msg'.ty = true → i ≤ i'

/-! ### Lists -/

/-- What is left of a list to which at most one member has been added, at the end. -/
theorem kept_prefix {α : Type} [DecidableEq α] {l l' : List α} {x : α} (h : l'.Sublist (l ++ [x]))
    (hl : (l ++ [x]).Nodup) : l.filter (· ∈ l') <+: l' := by
  obtain ⟨kept, added, rfl, hkept, hadded⟩ := List.sublist_append_iff.mp h
  obtain ⟨hdistinct, -, hx⟩ := List.nodup_append.mp hl
  have hsub : kept.Sublist (l.filter (· ∈ kept ++ added)) := by
    have hfilter := hkept.filter (· ∈ kept ++ added)
    rwa [List.filter_eq_self.mpr fun a ha => by simp [ha]] at hfilter
  have hin : l.filter (· ∈ kept ++ added) ⊆ kept := by
    intro a ha
    obtain ⟨hal, hmem⟩ := List.mem_filter.mp ha
    rcases List.mem_append.mp (of_decide_eq_true hmem) with hk | hn
    · exact hk
    · exact absurd rfl (hx a hal a (hadded.subset hn))
  rw [← hsub.eq_of_length_le (List.subperm_of_subset (hdistinct.filter _) hin).length_le]
  exact List.prefix_append ..

/-! ### What is pending -/

namespace Kernel

/-- The walk along the waiting list of `dest`. -/
def waiters (k : Kernel) (dest : Pid) : Except Stop (List Pid) := k.table.chain (k.table.waitingOf dest)

variable {k : Kernel} {P : Plain} {p dest : Pid}

theorem Shows.waiters (h : k.Shows P) (dest : Pid) : k.waiters dest = .ok (P.waiters dest) :=
  (h.2.holds (.waiting dest)).walk

theorem Shows.mem_waiters (h : k.Shows P) : p ∈ P.waiters dest ↔ k.table.linkOf p = some (.waiting dest) :=
  h.2.threaded.member (.waiting dest) p

/-- A process in a waiting list holds a message out. -/
theorem Boxed.box_of_waiting (h : k.Boxed) (hl : k.table.linkOf p = some (.waiting dest)) :
    ∃ msg asks, k.box p = .offering dest msg asks := by
  obtain ⟨P, hk, hrest, hm⟩ := h
  obtain ⟨msg, asks, hb, -⟩ := hm.waiter hrest.sound (hk.mem_waiters.mpr hl) List.not_mem_nil
  exact ⟨msg, asks, hb⟩

end Kernel

section
variable {steps more : List Step} {i t : Nat} {s : Step} {src dest : Pid} {msg : Message}

theorem Delivery.append (h : Delivery steps src i t) (more : List Step) : Delivery (steps ++ more) src i t := by
  obtain ⟨s, hs, hd⟩ := h.delivers
  have hlt : t < steps.length := (List.getElem?_eq_some_iff.mp hs).1
  refine ⟨h.order, ⟨s, by rw [List.getElem?_append_left hlt, hs], hd⟩, fun x u hix hxt hu => ?_⟩
  rw [List.getElem?_append_left (Nat.lt_of_le_of_lt hxt hlt)] at hu
  exact h.latest x u hix hxt hu

theorem Pending.of_append (h : Pending (steps ++ more) i src dest msg) (hi : i < steps.length) :
    Pending steps i src dest msg := by
  obtain ⟨s, hs, hblocks⟩ := h.blocks
  rw [List.getElem?_append_left hi] at hs
  exact ⟨⟨s, hs, hblocks⟩, fun t hd => h.untaken t (hd.append more)⟩

/-- A process that does not run in the last step has sent its message before. -/
theorem Pending.before_last (h : Pending (steps ++ [s]) i src dest msg) (hne : src ≠ s.before.current) :
    Pending steps i src dest msg := by
  refine h.of_append (Nat.lt_of_not_le fun hle => ?_)
  obtain ⟨u, hu, hpost, -⟩ := h.blocks
  rw [List.getElem?_append_right hle] at hu
  obtain rfl : u = s := by
    have hmem := List.mem_of_getElem? hu
    simpa using hmem
  exact hne hpost.1.symm

end

namespace Run

variable {config : Config} {steps : List Step} {k : Kernel} {P : Plain} {i i' : Nat} {src dest dest' : Pid}
  {msg msg' : Message} {asks : Bool}

section
variable (h : Run Call.Admissible config steps k)
include h

/-- A message that is held out is pending. -/
theorem pending_of_offering (hb : k.box src = .offering dest msg asks) : ∃ i, Pending steps i src dest msg := by
  rcases h.ends with ⟨-, rfl⟩ | ⟨j, u, hlen, hu, rfl⟩
  · cases (Kernel.boot_box config src).symm.trans hb
  · obtain ⟨i, s, -, hs, hpost, hnone⟩ := h.posted hu ((h.path hu).offered hb)
    have huntaken : ∀ t, ¬Delivery steps src i t := by
      intro t hd
      obtain ⟨v, hv, d, m, he⟩ := hd.delivers
      obtain ⟨-, -, -, -, -, -, -, -, -, -, -, hrelieved, -⟩ := (h.path hv).delivery he
      have htj : t ≤ j := by
        have hlt := (List.getElem?_eq_some_iff.mp hv).1
        omega
      exact h.nothing_held hv hrelieved htj hu
        (fun x w htx hxj hw => hnone x w (Nat.lt_of_le_of_lt hd.order htx) hxj hw) _ _ _ hb
    obtain ⟨d, hd, hstate, -⟩ := (h.transfer hs hpost).waits i s (Nat.le_refl i) hs fun t _ _ => huntaken t
    refine ⟨i, ⟨s, hs, hpost, ?_⟩, huntaken⟩
    rw [Kernel.state?, hd, Option.map_some]
    exact hstate.imp (congrArg some) (congrArg some)

/-- A pending message is in the slot of its sender, which waits in the list of the receiver. -/
theorem of_pending (hp : Pending steps i src dest msg) :
    ∃ d, k.process? src = some d ∧ d.link = some (.waiting dest) ∧ d.slot = some msg := by
  obtain ⟨s, hs, hpost, -⟩ := hp.blocks
  rcases h.ends with ⟨rfl, -⟩ | ⟨j, u, hlen, hu, rfl⟩
  · cases hs
  · have hij : i ≤ j := by
      have hlt := (List.getElem?_eq_some_iff.mp hs).1
      omega
    obtain ⟨d, hd, -, hlink, hslot⟩ := (h.transfer hs hpost).waits j u hij hu fun t _ _ => hp.untaken t
    exact ⟨d, hd, hlink, hslot⟩

/-- No process has two messages pending. -/
theorem pending_unique (hp : Pending steps i src dest msg) (hp' : Pending steps i' src dest' msg') : i = i' := by
  have hnot : ∀ {i i' : Nat} {dest dest' : Pid} {msg msg' : Message}, Pending steps i src dest msg →
      Pending steps i' src dest' msg' → ¬i < i' := by
    intro i i' dest dest' msg msg' hp hp' hlt
    obtain ⟨s, hs, hpost, -⟩ := hp.blocks
    obtain ⟨s', hs', hpost', -⟩ := hp'.blocks
    obtain ⟨asks, hheld⟩ := h.held_out hs hpost
    have hnone := (hheld i' (Nat.le_of_lt hlt) s' hs' fun t _ _ => hp.untaken t).2
    exact hnone i' s' hlt (Nat.le_refl i') hs' dest' msg' hpost'
  exact Nat.le_antisymm (Nat.not_lt.mp (hnot hp' hp)) (Nat.not_lt.mp (hnot hp hp'))

/-- Those who wait in the list of a process are those who have a message for it pending. -/
theorem mem_waiters (hk : k.Shows P) : src ∈ P.waiters dest ↔ ∃ i msg, Pending steps i src dest msg := by
  constructor
  · intro hsrc
    obtain ⟨msg, asks, hb⟩ := h.boxed.box_of_waiting (hk.mem_waiters.mp hsrc)
    obtain ⟨i, hi⟩ := h.pending_of_offering hb
    exact ⟨i, msg, hi⟩
  · rintro ⟨i, msg, hp⟩
    obtain ⟨d, hd, hlink, -⟩ := h.of_pending hp
    exact hk.mem_waiters.mpr ((Table.linkOf_of_get? hd).trans hlink)

end

/-! ### Chronological order -/

/-- Every message of `p` to `dest` that is pending was sent before any such message of `q`. -/
def SentBefore (steps : List Step) (dest p q : Pid) : Prop :=
  ∀ i i' msg msg', Pending steps i p dest msg → Pending steps i' q dest msg' → i < i'

/-- The members of a waiting list stand in the order in which they have sent their messages. -/
theorem waiters_pairwise (h : Run Call.Admissible config steps k) (hk : k.Shows P) (dest : Pid) :
    (P.waiters dest).Pairwise (SentBefore steps dest) := by
  induction h generalizing P with
  | boot =>
    have hempty := (hk.waiters dest).symm.trans ((Kernel.Shows.boot config).waiters dest)
    rw [Except.ok.inj hempty]
    exact List.Pairwise.nil
  | @call steps k k' c answer before allowed done ih =>
    have hrun := before.call allowed done
    obtain ⟨P', R, hk₁, hrest, hk₂, -, -, hconducts⟩ := hrun.proper.conducts List.getElem?_concat_length
    have hsame : P.waiters dest = R.waiters dest := Except.ok.inj ((hk.waiters dest).symm.trans (hk₂.waiters dest))
    have hold : ∀ p ∈ P'.waiters dest, p ≠ k.current := fun p hp => hk₁.current ▸ hrest.ne_of_queued hp
    rw [hsame]
    refine (List.pairwise_append.mpr ⟨?_, List.pairwise_singleton .., ?_⟩).sublist (hconducts.waiters dest)
    · refine (ih hk₁).imp_of_mem fun {p q} hp hq hpq i i' m m' hi hi' => ?_
      exact hpq i i' m m' (hi.before_last (hold p hp)) (hi'.before_last (hold q hq))
    -- Whoever comes in sends its message in the last step.
    · intro p hp q hq i i' m m' hi hi'
      obtain rfl := List.mem_singleton.mp hq
      have hlt : i < steps.length := by
        obtain ⟨s, hs, -⟩ := (hi.before_last (hold p hp)).blocks
        exact (List.getElem?_eq_some_iff.mp hs).1
      refine Nat.lt_of_lt_of_le hlt (Nat.le_of_not_lt fun hlt' => ?_)
      exact hold _ ((before.mem_waiters hk₁).mpr ⟨i', m', hi'.of_append hlt'⟩) hk₁.current

section
variable (h : Run Call.Admissible config steps k)
include h

theorem inArrivalOrder (hk : k.Shows P) (dest : Pid) : InArrivalOrder steps dest (P.waiters dest) := by
  have hmem : ∀ src, src ∈ P.waiters dest ↔ ∃ i msg, Pending steps i src dest msg := fun _ => h.mem_waiters hk
  -- Each member has sent one pending message; these calls are the witness.
  choose! call hcall using fun src hsrc => (hmem src).mp hsrc
  refine ⟨(P.waiters dest).map call, ?_, fun i => ⟨fun hi => ?_, ?_⟩, ?_⟩
  · refine List.pairwise_map.mpr ((h.waiters_pairwise hk dest).imp_of_mem fun {p q} hp hq hpq => ?_)
    obtain ⟨m, hm⟩ := hcall p hp
    obtain ⟨m', hm'⟩ := hcall q hq
    exact hpq _ _ m m' hm hm'
  · obtain ⟨src, hsrc, rfl⟩ := List.mem_map.mp hi
    exact ⟨src, hcall src hsrc⟩
  · rintro ⟨src, msg, hp⟩
    have hsrc := (hmem src).mpr ⟨i, msg, hp⟩
    obtain ⟨m, hm⟩ := hcall src hsrc
    exact List.mem_map.mpr ⟨src, hsrc, h.pending_unique hm hp⟩
  · exact List.forall₂_map_left_iff.mpr (List.forall₂_same.mpr hcall)

/-- The first member of a waiting list that the filter accepts has sent the earliest such message. -/
theorem earliest (hk : k.Shows P) {filter : MessageType} (hf : P.sender? dest filter = some src)
    (hb : k.box src = .offering dest msg asks) : ∃ i, Earliest steps filter i src dest msg := by
  obtain ⟨i, hp⟩ := h.pending_of_offering hb
  have hslot : ∀ {i src msg}, Pending steps i src dest msg → P.slot src = some msg := by
    intro i src msg hp
    obtain ⟨d, hd, -, hslot⟩ := h.of_pending hp
    rw [Plain.slot, hk.process, Table.plain, show k.table.get? src = some d from hd]
    exact hslot
  have hoffers : ∀ {i src msg}, Pending steps i src dest msg → P.offers filter src = filter.accepts msg.ty := by
    intro i src msg hp
    rw [Plain.offers, hslot hp]
    rfl
  obtain ⟨hacc, before, after, hsplit, hnone⟩ := List.find?_eq_some_iff_append.mp hf
  refine ⟨i, hp, (hoffers hp).symm.trans hacc, fun i' src' msg' hp' hacc' => ?_⟩
  have hmem : src' ∈ before ++ src :: after := hsplit ▸ (h.mem_waiters hk).mpr ⟨i', msg', hp'⟩
  have horder := h.waiters_pairwise hk dest
  rw [show P.waiters dest = before ++ src :: after from hsplit] at horder
  rcases List.mem_append.mp hmem with hbefore | hrest
  · -- Who stands before it offers nothing that the filter accepts.
    have hrefused := hnone src' hbefore
    rw [hoffers hp', hacc'] at hrefused
    cases hrefused
  · rcases List.mem_cons.mp hrest with rfl | hafter
    · exact Nat.le_of_eq (h.pending_unique hp hp')
    · -- Who stands behind it has sent later.
      have hlater := (List.pairwise_cons.mp (List.pairwise_append.mp horder).2.1).1 src' hafter
      exact Nat.le_of_lt (hlater i i' msg msg' hp hp')

end

end Run

/-- What a step after those of `past` does to the waiting list of `dest`. -/
structure Step.Serves (s : Step) (past : List Step) (dest : Pid) : Prop where
  /-- A message that another process has sent before is the earliest one that the receiver accepts. -/
  taken : ∀ src got, .delivered src dest got ∈ s.events → src ≠ s.before.current →
    ∃ i msg, got = { msg with sender := src } ∧ Earliest past (s.call.wants s.before.current dest) i src dest msg
  /-- Nobody leaves the list whose message has not been taken. -/
  leaves : ∀ members members', s.before.waiters dest = .ok members → s.after.waiters dest = .ok members' →
    ∀ src ∈ members, src ∉ members' → src ≠ s.before.current ∧ ∃ got, .delivered src dest got ∈ s.events
  /-- Those that remain stay in their order, ahead of a newcomer. -/
  remaining : ∀ members members', s.before.waiters dest = .ok members → s.after.waiters dest = .ok members' →
    members.filter (· ∈ members') <+: members'

theorem Run.serves {config : Config} {steps : List Step} {k : Kernel} (h : Run Call.Admissible config steps k) {j : Nat}
    {s : Step} (hs : steps[j]? = some s) (dest : Pid) : s.Serves (steps.take j) dest := by
  obtain ⟨P, R, hk, hrest, hk', -, htrace, hconducts⟩ := h.proper.conducts hs
  have hbefore := (h.step hs).1
  have hmembers : ∀ members members', s.before.waiters dest = .ok members → s.after.waiters dest = .ok members' →
      members = P.waiters dest ∧ members' = R.waiters dest := fun members members' hw hw' =>
    ⟨Except.ok.inj (hw.symm.trans (hk.waiters dest)), Except.ok.inj (hw'.symm.trans (hk'.waiters dest))⟩
  refine ⟨fun src got he hne => ?_, fun members members' hw hw' src hsrc hgone => ?_, fun members members' hw hw' => ?_⟩
  · obtain ⟨msg, asks, ho, hgot, -⟩ := (h.path hs).delivery he
    rw [Step.opening_of_ne hne] at ho
    have hf := hconducts.takes htrace he (hk.current ▸ hne)
    rw [hk.current] at hf
    obtain ⟨i, hi⟩ := hbefore.earliest hk hf ho
    exact ⟨i, msg, hgot, hi⟩
  · obtain ⟨rfl, rfl⟩ := hmembers members members' hw hw'
    have hne : src ≠ s.before.current := hk.current ▸ hrest.ne_of_queued hsrc
    obtain ⟨msg, asks, hb⟩ := hbefore.boxed.box_of_waiting (hk.mem_waiters.mp hsrc)
    rw [← Step.opening_of_ne hne] at hb
    refine ⟨hne, Classical.by_contradiction fun hnone => hgone ?_⟩
    have hafter : s.after.box src = .offering dest msg asks := by
      refine (h.path hs).stays hb fun d m he => hnone ?_
      obtain ⟨m', asks', ho, -⟩ := (h.path hs).delivery he
      obtain ⟨rfl, -⟩ := Box.offering.inj (hb.symm.trans ho)
      exact ⟨m, he⟩
    obtain ⟨Q', hkQ', -, hm'⟩ := h.after_boxed hs
    exact hk'.mem_waiters.mpr (hkQ'.mem_waiters.mp (hm'.dest src List.not_mem_nil dest msg asks hafter))
  · obtain ⟨rfl, rfl⟩ := hmembers members members' hw hw'
    refine kept_prefix (hconducts.waiters dest) (List.nodup_append.mpr ⟨hrest.sound.queue _, List.nodup_singleton _, ?_⟩)
    intro p hp q hq
    rw [List.mem_singleton.mp hq]
    exact hrest.ne_of_queued hp

/-- At all times, a waiting list tells which messages are pending, in the order in which they were sent; every step takes
    the earliest one that the receiver accepts and leaves the others in their order. -/
theorem waiting_lists_in_arrival_order {config : Config} {steps : List Step} {k : Kernel}
    (h : Run Call.Admissible config steps k) (dest : Pid) :
    (∃ members, k.waiters dest = .ok members ∧ InArrivalOrder steps dest members) ∧
      ∀ (j : Nat) (s : Step), steps[j]? = some s → s.Serves (steps.take j) dest := by
  refine ⟨?_, fun j s hs => h.serves hs dest⟩
  obtain ⟨P, hk, -⟩ := h.proper.resting
  exact ⟨P.waiters dest, hk.waiters dest, h.inArrivalOrder hk dest⟩

/-- Three processes send to one that has given way, which then takes the message of the second one. -/
def backlogCalls : List Call :=
  [.start "server" 0 0 0, .start "first" 0 0 0, .start "second" 0 0 0, .start "third" 0 0 0, .launch, .serve .yield,
    .serve (.send 1 (.new ⟨16⟩)), .serve (.send 1 (.new ⟨17⟩)), .serve (.sendRec 1 (.new ⟨16⟩)),
    .serve (.receive ⟨17⟩ none)]

/-- What comes of the three messages. -/
def backlog : List Step × Kernel := ((Kernel.boot {}).follow Call.Admissible backlogCalls).get (by decide +kernel)

theorem backlog_run : Run Call.Admissible {} backlog.1 backlog.2 := Run.of_boot (Option.some_get _).symm

/-- The first and the third one still wait, in this order. -/
theorem waiting_lists_in_arrival_order_backlog : backlog.2.waiters ⟨1⟩ = .ok [⟨2⟩, ⟨4⟩] ∧
    InArrivalOrder backlog.1 ⟨1⟩ [⟨2⟩, ⟨4⟩] ∧ ∃ s, backlog.1[9]? = some s ∧ s.before.waiters ⟨1⟩ = .ok [⟨2⟩, ⟨3⟩, ⟨4⟩] ∧
      ∃ i msg, Earliest (backlog.1.take 9) ⟨17⟩ i ⟨3⟩ ⟨1⟩ msg := by
  have hwaiters : backlog.2.waiters ⟨1⟩ = .ok [⟨2⟩, ⟨4⟩] := by decide +kernel
  have hstep : backlog.1[9]?.map (fun s => (s.before.waiters ⟨1⟩, s.before.current, s.call.wants ⟨1⟩ ⟨1⟩)) =
      some (.ok [⟨2⟩, ⟨3⟩, ⟨4⟩], ⟨1⟩, ⟨17⟩) := by decide +kernel
  have hdelivers : backlog.1[9]?.any (.delivered ⟨3⟩ ⟨1⟩ { Message.new ⟨17⟩ with sender := ⟨3⟩ } ∈ ·.events) := by
    decide +kernel
  obtain ⟨⟨members, hmembers, horder⟩, hserves⟩ := waiting_lists_in_arrival_order backlog_run ⟨1⟩
  obtain rfl := Except.ok.inj (hwaiters.symm.trans hmembers)
  obtain ⟨s, hs, hbefore⟩ := Option.map_eq_some_iff.mp hstep
  obtain ⟨hlist, hrest⟩ := Prod.mk.inj hbefore
  obtain ⟨hcurrent, hwants⟩ := Prod.mk.inj hrest
  rw [hs] at hdelivers
  obtain ⟨i, msg, -, hearliest⟩ := (hserves 9 s hs).taken ⟨3⟩ _ (of_decide_eq_true hdelivers) (by rw [hcurrent]; decide)
  rw [hcurrent, hwants] at hearliest
  exact ⟨hwaiters, horder, s, hs, hlist, i, msg, hearliest⟩

end Rendezvous
