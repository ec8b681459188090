import Rendezvous.Proofs.Fates
import Rendezvous.Proofs.Transfer

/-! # No missed rendezvous

No process waits for what is there for it already: neither for an interrupt that is pending nor for a message that
is held out to it. -/

namespace Rendezvous

namespace Plain

/-- Nothing is there that `p` would take if it began to wait as `a` tells. -/
structure Bare (P : Plain) (p : Pid) (a : Stance) : Prop where
  interrupt : a.pending = true → a.filter.accepts .interrupt = false
  sender : a.filter ≠ .interrupt → P.sender? p a.filter = none

variable {P : Plain} {b : Boxes} {hand : List Pid} {c : Call} {p src dest : Pid} {a a' : Stance} {msg : Message}
  {asks : Bool} {filter : MessageType}

/-- A filter that finds no sender accepts no message that is held out. -/
theorem Mail.unwanted (h : P.Mail hand b) (hf : P.sender? dest filter = none) (hb : b src = .offering dest msg asks)
    (hout : src ∉ hand) : filter.accepts msg.ty = false := by
  have hslot : P.slot src = some msg := by rw [← h.slot, hb, Box.slot]
  have hrefuses := List.find?_eq_none.mp hf src (h.dest src hout dest msg asks hb)
  rw [Plain.offers, hslot] at hrefuses
  simpa using hrefuses

/-- A process that waits after a call of another one began to wait in it, or has waited all along; then no interrupt
is pending now that it would have taken. -/
theorem Fate.waits (h : P.Fate c p a a') (hs : a'.state = .receiving) :
    P.Bare p a' ∨ a.state = .receiving ∧ a'.filter = a.filter ∧
      (a'.pending = true → a.pending = true ∨ a.accepts .interrupt = false) := by
  cases h with
  | same => exact .inr ⟨hs, rfl, .inl⟩
  | alerted signal unwanted => exact .inr ⟨hs, rfl, fun _ => .inr unwanted⟩
  | counted => exact .inr ⟨hs, rfl, .inl⟩
  | asked filter timeout request blocked unanswered => exact .inl ⟨fun _ => rfl, fun _ => unanswered⟩
  | sent | interrupted | expired | released | answered => cases hs

/-- A process begins to wait only if there is nothing for it. -/
theorem Turn.waits (h : P.Turn c a a') (ha : a.state ≠ .receiving) (hs : a'.state = .receiving) :
    P.Bare P.current a' := by
  cases h with
  | awaits dest msg request unanswered => exact ⟨fun _ => rfl, fun _ => unanswered⟩
  | blocks filter timeout deadline request timed uninterrupted unsent => exact ⟨uninterrupted, unsent⟩
  | idle | took | alerted | interrupted | expired => exact absurd hs ha
  | exited | sent | sends | asks | answered | received => cases hs

end Plain

namespace Kernel

/-- No process waits for a pending interrupt or for a message that is held out to it. A receiver of interrupts
alone takes no message out of its waiting list. -/
structure Attentive (k : Kernel) : Prop where
  interrupt : ∀ p a, k.stance p = some a → a.pending = true → a.accepts .interrupt = false
  sender : ∀ p a src msg asks, k.stance p = some a → a.filter ≠ .interrupt → k.box src = .offering p msg asks →
    a.accepts msg.ty = false

variable {k k' : Kernel} {c : Call} {answer : Answer} {p : Pid} {a : Stance}

/-- Where a process that waits after a call comes from. -/
theorem Boxed.waits (h : k.Boxed) (hc : c.Admissible k) (hok : (k.call c).outcome = .ok (answer, k'))
    (ha : k'.stance p = some a) (hs : a.state = .receiving) :
    (∃ P : Plain, P.Mail [] k.box ∧ P.Bare p a) ∨
      ∃ b, k.stance p = some b ∧ b.state = .receiving ∧ a.filter = b.filter ∧
        (a.pending = true → b.pending = true ∨ b.accepts .interrupt = false) := by
  obtain ⟨b, hb⟩ := h.former hc hok ha hs
  obtain ⟨P, hk, hrest, hm, hfates⟩ := h.fates hc hok
  obtain ⟨e, he, hfate, hturn⟩ := hfates p b hb
  obtain rfl := Option.some_inj.mp (he.symm.trans ha)
  by_cases hp : p = k.current
  · have hcur := hp.trans hk.current.symm
    have hactive := (hrest.stance_current (hcur ▸ hk.stance ▸ hb)).2.1
    exact .inl ⟨P, hm, hcur ▸ (hturn hp).waits hactive hs⟩
  · exact ((hfate hp).waits hs).imp (fun hbare => ⟨P, hm, hbare⟩) fun hwaits => ⟨b, hb, hwaits⟩

/-- A message that is held out after a call was so before it, or the process that runs has sent it in vain. -/
theorem Boxed.offering (h : k.Boxed) (hc : c.Admissible k) (hok : (k.call c).outcome = .ok (answer, k'))
    (ha : k'.stance p = some a) (hs : a.state = .receiving) {src : Pid} {msg : Message} {asks : Bool}
    (hb : k'.box src = .offering p msg asks) : k.box src = .offering p msg asks ∨ a.accepts msg.ty = false := by
  obtain ⟨hboxed, hpath⟩ := h.call hc hok
  have hopen := hpath.offered hb
  by_cases hsrc : src = k.current
  · right
    -- Who holds a message out does not wait, so `p` is another process.
    have hne : p ≠ k.current := fun hp => by
      cases (hsrc.trans hp.symm ▸ hb).symm.trans (hboxed.box_of_receiving ha hs)
    obtain ⟨d, hd⟩ := h.former hc hok ha hs
    obtain ⟨P, hk, hrest, hm, hfates⟩ := h.fates hc hok
    obtain ⟨e, he, hfate, -⟩ := hfates p d hd
    obtain rfl := Option.some_inj.mp (he.symm.trans ha)
    have hkeeps := hm.current hrest
    rw [hk.current] at hkeeps
    rw [hsrc, Function.update_self, hkeeps] at hopen
    obtain ⟨register, rfl, hr | hr⟩ := Call.of_opens_offering hopen
    · exact (hfate hne).unsent hs hr rfl
    · exact (hfate hne).unsent hs hr rfl
  · rw [Function.update_of_ne hsrc] at hopen
    exact .inl hopen

/-- No call lets a process wait for what is there. -/
theorem Attentive.call (h : k.Attentive) (hboxed : k.Boxed) (hc : c.Admissible k)
    (hok : (k.call c).outcome = .ok (answer, k')) : k'.Attentive := by
  refine ⟨fun p a ha hpending => ?_, fun p a src msg asks ha hfilter hb => ?_⟩
  · by_contra hacc
    rw [Bool.not_eq_false] at hacc
    have hs := Stance.receiving_of_accepts hacc
    rw [Stance.accepts_of_receiving hs] at hacc
    -- Who begins to wait has no such interrupt pending, and who waited before had none.
    rcases hboxed.waits hc hok ha hs with ⟨P, -, hbare⟩ | ⟨b, hb, hsb, hfilter, hpend⟩
    · cases hacc.symm.trans (hbare.interrupt hpending)
    · have hunwanted : b.accepts .interrupt = false := (hpend hpending).elim (h.interrupt p b hb) id
      rw [Stance.accepts_of_receiving hsb, ← hfilter] at hunwanted
      cases hacc.symm.trans hunwanted
  · by_contra hacc
    have hs := Stance.receiving_of_accepts ((Bool.not_eq_false _).mp hacc)
    have hold := (hboxed.offering hc hok ha hs hb).resolve_right hacc
    rw [Stance.accepts_of_receiving hs] at hacc
    rcases hboxed.waits hc hok ha hs with ⟨P, hm, hbare⟩ | ⟨d, hd, hsd, hf, -⟩
    · exact hacc (hm.unwanted (hbare.sender hfilter) hold List.not_mem_nil)
    · have hunwanted := h.sender p d src msg asks hd (hf ▸ hfilter) hold
      rw [Stance.accepts_of_receiving hsd, ← hf] at hunwanted
      exact hacc hunwanted

theorem boot_attentive (config : Config) : (boot config).Attentive := by
  refine ⟨fun p a ha _ => ?_, fun p a src msg asks _ _ hb => ?_⟩
  · by_contra hacc
    have hs := Stance.receiving_of_accepts ((Bool.not_eq_false _).mp hacc)
    cases (boot_box config p).symm.trans ((boot_boxed config).box_of_receiving ha hs)
  · cases (boot_box config src).symm.trans hb

/-- No rendezvous is missed and no interrupt is lost: no process waits for a pending interrupt, or for a message that
a process in its waiting list holds. -/
structure Prompt (k : Kernel) : Prop where
  interrupt : ∀ p d, k.process? p = some d → d.state = .receiving →
    ¬(d.pending = true ∧ d.filter.accepts .interrupt = true)
  /-- A process that receives interrupts alone takes no messages. -/
  sender : ∀ p d, k.process? p = some d → d.state = .receiving → d.filter ≠ .interrupt →
    ∃ members, k.table.chain d.waiting = .ok members ∧
      ∀ src ∈ members, ∀ msg, k.message? src = some msg → d.filter.accepts msg.ty = false

/-- The processes in a waiting list hold their messages out. -/
theorem Boxed.members (h : k.Boxed) {dest : Pid} {d : Descriptor} (hd : k.process? dest = some d) :
    ∃ members, k.table.chain d.waiting = .ok members ∧
      ∀ src ∈ members, ∀ msg, k.message? src = some msg → ∃ asks, k.box src = .offering dest msg asks := by
  have hslot := h.message
  obtain ⟨P, hk, hrest, hm⟩ := h
  have hlist := (hk.wellLinked hrest).waiting dest
  have hhead : k.table.waitingOf dest = d.waiting := Table.waitingOf_of_get? hd
  refine ⟨P.queue (.waiting dest), hhead ▸ hlist.walk, fun src hsrc msg hmsg => ?_⟩
  obtain ⟨m, asks, hb, -⟩ := hm.waiter hrest.sound hsrc List.not_mem_nil
  rw [hslot, hb] at hmsg
  obtain rfl : m = msg := Option.some_inj.mp hmsg
  exact ⟨asks, hb⟩

theorem Attentive.prompt (h : k.Attentive) (hboxed : k.Boxed) : k.Prompt := by
  refine ⟨fun p d hp hs => ?_, fun p d hp hs hfilter => ?_⟩
  · rintro ⟨hpending, hacc⟩
    have hunwanted := h.interrupt p _ (stance_eq hp) hpending
    rw [Stance.accepts_of_receiving hs] at hunwanted
    cases hacc.symm.trans hunwanted
  · obtain ⟨members, hwalk, hholds⟩ := hboxed.members hp
    refine ⟨members, hwalk, fun src hsrc msg hmsg => ?_⟩
    obtain ⟨asks, hb⟩ := hholds src hsrc msg hmsg
    have hunwanted := h.sender p _ src msg asks (stance_eq hp) hfilter hb
    rwa [Stance.accepts_of_receiving hs] at hunwanted

end Kernel

theorem Run.attentive {config : Config} {steps : List Step} {k : Kernel} (h : Run Call.Admissible config steps k) :
    k.Attentive := by
  induction h with
  | boot => exact Kernel.boot_attentive config
  | call before allowed done ih => exact ih.call before.boxed allowed done

/-- Whatever the order of calls, no process waits for a message or an interrupt that is there for it. -/
theorem no_missed_rendezvous {config : Config} {steps : List Step} {k : Kernel} (h : Run Call.Admissible config steps k) :
    k.Prompt :=
  h.attentive.prompt h.boxed

/-- The first process has asked and waits for the reply. -/
theorem no_missed_rendezvous_exchange :
    ∃ s, exchange.1[8]? = some s ∧ s.before.state? ⟨1⟩ = some .receiving ∧ s.before.Prompt := by
  have hstate : exchange.1[8]?.map (·.before.state? ⟨1⟩) = some (some .receiving) := by decide +kernel
  obtain ⟨s, hs, hreceives⟩ := Option.map_eq_some_iff.mp hstate
  exact ⟨s, hs, hreceives, no_missed_rendezvous (exchange_run.step hs).1⟩

end Rendezvous
