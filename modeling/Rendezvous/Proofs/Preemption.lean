import Rendezvous.Proofs.Dispatch
import Rendezvous.Proofs.Resumption

/-! # Interrupts bring their handlers to the processor

An interrupt wakes the handler that waits for it, and the switch of context after it lets the first handler run. The
process that gives way is ready as after a yield, and everybody else stays as it is. -/

namespace Rendezvous

theorem Priority.eq_of_level? {a b : Priority} {l : Level} (ha : a.level? = some l) (hb : b.level? = some l) : a = b := by
  have hle := Priority.le_of_level? ha hb (Nat.le_refl _)
  have hge := Priority.le_of_level? hb ha (Nat.le_refl _)
  have hval : a.val = b.val := UInt8.le_antisymm hle hge
  cases a
  cases b
  exact congrArg Priority.mk hval

/-- If a handler is ready, the first one of them runs. -/
theorem Choice.handler {ready left : Level → List Pid} {runs : Pid} (h : Choice ready runs left)
    (hready : ready .handler ≠ []) : ∃ rest, ready .handler = runs :: rest ∧ left = Function.update ready .handler rest := by
  cases h with
  | idle empty => exact absurd (empty .handler) hready
  | front l rest head urgent left =>
    cases l with
    | handler => exact ⟨rest, head, left⟩
    | high | low => exact absurd (urgent .handler (by decide)) hready

namespace Plain

variable {P : Plain} {c : Call} {p : Pid} {d : Descriptor} {a a' : Stance} {psp : Word}

/-! ### Who waits -/

/-- A process begins to wait for a message in a request only, its own or that of another process. -/
theorem Fate.begins (h : P.Fate c p a a') (hs : a'.state = .receiving) : a.state = .receiving ∨ c.request?.isSome := by
  cases h with
  | same | alerted | counted => exact .inl hs
  | asked _ _ request => exact .inr (by simp [request])
  | sent | interrupted | expired | released | answered => cases hs

theorem Turn.begins (h : P.Turn c a a') (hs : a'.state = .receiving) : a.state = .receiving ∨ c.request?.isSome := by
  cases h with
  | idle | took | alerted | interrupted | expired => exact .inl hs
  | awaits _ _ request | blocks _ _ _ request => exact .inr (by simp [request])
  | exited | sent | sends | asks | answered | received => cases hs

/-! ### The ready queues -/

/-- An interrupt makes the process ready that waits for it. -/
theorem Rests.course_interrupt (h : P.Rests) (ha : P.accepts p .interrupt = true) :
    P.Course [.notified p .interrupt] [p] (P.interrupt p) :=
  (Course.counted P _).trans (Course.alert_of_accepts (h.counted _) ha)

/-- A process that gives way becomes ready; the idle process does not. -/
theorem Rests.course_gives_way (h : P.Rests) (psp : Word) :
    P.Course [] (inHand P.current) ((P.save psp).wake P.current) := by
  have hsave := Course.modify P P.current (f := fun d => { d with context := Arena.locate psp }) fun _ => rfl
  by_cases hi : P.current = .idle
  · have hwake := (h.save psp).sound.wake_idle
    rw [inHand, if_pos hi, hi] at *
    rw [hwake]
    exact hsave
  · have hheld := (h.save psp).held hi
    rw [inHand, if_neg hi]
    exact hsave.trans (Course.wake hheld)

/-- An interrupt and the switch after it: the handler and the process that gives way become ready, and of the handlers
that are ready then, the first one runs. -/
theorem Rests.relieved (h : P.Rests) (ht : P.Timed) (ha : P.accepts p .interrupt = true) (psp : Word)
    (hp : goesTo P.rank .handler p = true) (hc : goesTo P.rank .handler P.current = false) :
    ∃ rest, (((P.interrupt p).preempt psp).current :: rest).Perm (p :: P.ready .handler) ∧
      (P.policy = .fifo → ((P.interrupt p).preempt psp).current :: rest = P.ready .handler ++ [p]) ∧
      ∀ l, P.current ≠ .idle → goesTo P.rank l P.current = true → P.current ∈ ((P.interrupt p).preempt psp).ready l ∧
        (P.policy = .fifo → ((P.interrupt p).preempt psp).ready l = P.ready l ++ [P.current]) := by
  have hrest : (P.interrupt p).Rests := (h.counted _).alert p
  have halert := h.course_interrupt ha
  have hcourse := halert.trans (hrest.course_gives_way psp)
  have hhand : inHand (P.interrupt p).current = inHand P.current := by rw [halert.current]
  have hchoice : Choice _ ((P.interrupt p).preempt psp).current ((P.interrupt p).preempt psp).ready :=
    (hcourse.timed ht).choice
  rw [hcourse.ready, hhand] at hchoice
  -- Of the two, only the handler goes into the first queue.
  have hnewcomers : ([p] ++ inHand P.current).filter (goesTo P.rank .handler) = [p] := by
    unfold inHand
    split <;> simp [hp, hc]
  have hperm : (([p] ++ inHand P.current).foldl (P.policy.place P.rank) P.ready .handler).Perm _ :=
    Policy.place_perm P.policy .handler
  rw [hnewcomers] at hperm
  -- That queue is not empty, so its head runs.
  obtain ⟨rest, hhead, hleft⟩ := hchoice.handler fun hnil => by
    rw [hnil] at hperm
    cases hperm.symm.eq_nil
  rw [hhead] at hperm
  refine ⟨rest, hperm, fun hfifo => ?_, fun l hne hl => ?_⟩
  · rw [hfifo, Policy.place_fifo, hnewcomers] at hhead
    exact hhead.symm
  · -- The one that gives way goes into another queue, of which nobody is taken.
    have hlevel : l ≠ .handler := by
      rintro rfl
      rw [hc] at hl
      cases hl
    have hpl : goesTo P.rank l p = false := by
      cases hr : P.rank p with
      | none => simp [goesTo, hr] at hp
      | some r =>
        have hfirst : r.1 = some .handler := by simpa [goesTo, hr] using hp
        simp [goesTo, hr, hfirst, hlevel.symm]
    have hlast : ([p] ++ inHand P.current).filter (goesTo P.rank l) = [P.current] := by
      rw [inHand, if_neg hne]
      simp [hpl, hl]
    have hready : ((P.interrupt p).preempt psp).ready l =
        ([p] ++ inHand P.current).foldl (P.policy.place P.rank) P.ready l :=
      (congrFun hleft l).trans (Function.update_of_ne hlevel ..)
    rw [hready]
    refine ⟨?_, fun hfifo => ?_⟩
    · rw [(Policy.place_perm P.policy l).mem_iff, hlast]
      exact List.mem_append_left _ List.mem_cons_self
    · rw [hfifo, Policy.place_fifo, hlast]

end Plain

/-! ### Runs -/

namespace Kernel

/-- Up to now, `p` has been in the ready queue of the level for longer than all the others there. -/
structure LongestReady (k : Kernel) (steps : List Step) (l : Level) (p : Pid) : Prop where
  ready : k.table.linkOf p = some (.ready l)
  earlier : ∀ q, q ≠ p → k.table.linkOf q = some (.ready l) → Earlier steps l steps.length p q

/-- The process `p` is active in the queue of its priority, and the last one there if the queue goes by arrival. -/
def StandsBy (k : Kernel) (policy : Policy) (p : Pid) (priority : Priority) : Prop :=
  ∃ d l members, k.process? p = some d ∧ d.state = .active ∧ d.priority = priority ∧ priority.level? = some l ∧
    k.table.chain (k.scheduler.queues.get l).head = .ok members ∧ p ∈ members ∧
    (policy = .fifo → members.getLast? = some p)

/-- From `k` to `k'`, the handler `p` is told of an interrupt and the process that runs in `k` gives way to a handler. -/
structure Relieved (k : Kernel) (steps : List Step) (policy : Policy) (p : Pid) (psp : Word) (k' : Kernel) : Prop where
  handler : ∃ d, k'.process? k'.current = some d ∧ d.priority = .handler
  /-- The handler that was told runs at once if no other one was ready. -/
  first : (∀ q, k.table.linkOf q ≠ some (.ready .handler)) → k'.current = p
  eldest : policy = .fifo → (∃ q, k.table.linkOf q = some (.ready .handler)) →
    k.LongestReady steps .handler k'.current
  told : ∃ d, k'.process? p = some d ∧ d.state = .active ∧ d.slot = some (.new .interrupt) ∧ d.deadline = none
  gaveWay : k.current ≠ .idle → ∃ d, k.process? k.current = some d ∧ k'.StandsBy policy k.current d.priority
  resumes : k'.continuation? k.current = some psp
  /-- Nobody else begins or ceases to wait, and nobody else gets a message or loses one. -/
  others : ∀ q, q ≠ p → k'.stance q = k.stance q

end Kernel

namespace Kernel.Shows

variable {k k₂ : Kernel} {P Q : Plain} {p : Pid} {a : Stance} {psp : Word}

/-- The process that an interrupt is for has the message, and the stances of all others are as before. -/
theorem stance_preempted (hk : k.Shows P) (hrest : P.Rests) (hk₂ : k₂.Shows ((P.interrupt p).preempt psp))
    (hp : k.stance p = some a) (ha : a.accepts .interrupt = true) :
    k₂.stance p = some (a.got (.new .interrupt)) ∧ ∀ q, q ≠ p → k₂.stance q = k.stance q := by
  have hrest₁ : (P.interrupt p).Rests := (hrest.counted _).alert p
  rw [← hk₂.stance, hrest₁.stance_preempt, ← hk.stance]
  refine ⟨?_, fun q hq => Plain.stance_of_process (Plain.interrupt_ne hq)⟩
  rw [hrest.stance_interrupt (hk.stance ▸ hp), if_pos ha]

/-- A process that gave way stands by in the queue of its priority. -/
theorem standsBy (hk : k.Shows P) (hrest : P.Rests) (hk₂ : k₂.Shows Q) {c e : Descriptor} (hc : k.process? k.current = some c)
    (hne : k.current ≠ .idle) (he : k₂.process? k.current = some e) (hpriority : e.priority = c.priority)
    (hstance : k₂.stance k.current = k.stance k.current) {policy : Policy}
    (hqueued : ∀ l, c.priority.level? = some l → k.current ∈ k₂.line l ∧
      (policy = .fifo → k₂.line l = k.line l ++ [k.current])) :
    k₂.StandsBy policy k.current c.priority := by
  have hcurrent : P.current ≠ .idle := hk.current ▸ hne
  have hplain : P.process P.current = some c.plain := hk.process_eq (hk.current ▸ hc)
  obtain ⟨l, hl⟩ := (hrest.sound.fits _ _ hplain).level hcurrent
  obtain ⟨hmem, hlast⟩ := hqueued l hl
  have hchain := hk₂.chain_line l
  rw [hk₂.line] at hchain
  refine ⟨e, l, _, he, ?_, hpriority, hl, hchain, hmem, fun hfifo => ?_⟩
  · rw [Kernel.stance_eq he, Kernel.stance_eq hc] at hstance
    have hactive : c.plain.state = .active := hrest.active _ hplain hcurrent
    exact (congrArg Stance.state (Option.some_inj.mp hstance)).trans hactive
  · rw [hlast hfifo]
    exact List.getLast?_concat

end Kernel.Shows

namespace Run

variable {config : Config} {steps : List Step} {k k₁ k₂ : Kernel} {p q : Pid} {a : Stance} {psp : Word}
  {answer answer' : Answer}

/-- Nobody waits for a message before the launch. -/
theorem running_of_receiving (h : Run Call.Admissible config steps k) (ha : k.stance p = some a)
    (hs : a.state = .receiving) : k.running = true := by
  induction h generalizing a with
  | boot => cases (Kernel.boot_box config p).symm.trans ((Kernel.boot_boxed config).box_of_receiving ha hs)
  | @call steps k k' c answer before allowed done ih =>
    obtain ⟨b, hb⟩ := before.boxed.former allowed done ha hs
    obtain ⟨P, hk, hrest, -, hfates⟩ := before.boxed.fates allowed done
    obtain ⟨e, he, hfate, hturn⟩ := hfates p b hb
    obtain rfl := Option.some_inj.mp (he.symm.trans ha)
    have hbegins : b.state = .receiving ∨ c.request?.isSome := by
      by_cases hp : p = k.current
      · exact (hturn hp).begins hs
      · exact (hfate hp).begins hs
    have hrunning : k.running = true := by
      rcases hbegins with hb' | hr
      · exact ih hb hb'
      · exact allowed.1.running hr
    exact (Kernel.Resting.grows ⟨P, hk, hrest⟩ allowed.1 done).2.1 hrunning

/-- Neither an interrupt nor the switch after it changes a priority, and the switch keeps the stack pointer. -/
theorem standing_preempted (h : Run Call.Proper config steps k)
    (hinterrupt : (k.call (.interrupt p)).outcome = .ok (answer, k₁))
    (hpreempt : (k₁.call (.preempt psp)).outcome = .ok (answer', k₂)) (hcurrent : k₁.current = k.current)
    {d : Descriptor} (hq : k.process? q = some d) : ∃ e, k₂.process? q = some e ∧ e.priority = d.priority ∧
      (q = k.current → k₂.continuation? q = some psp) := by
  have hs : k.standing? q = some d.standing := by rw [Kernel.standing?_eq, hq, Option.map_some]
  obtain ⟨s₁, pending₁, hs₁, hset₁⟩ := (k.call_handles h.numbered (.interrupt p) _ hinterrupt).sets hs
  have hrun := h.call (c := .interrupt p) trivial hinterrupt
  obtain ⟨s₂, pending₂, hs₂, hset₂⟩ := (k₁.call_handles hrun.numbered (.preempt psp) _ hpreempt).sets hs₁
  obtain ⟨e, he, hstanding⟩ := Option.map_eq_some_iff.mp ((Kernel.standing?_eq k₂ q).symm.trans hs₂)
  refine ⟨e, he, ?_, ?_⟩
  · have hpriority : e.standing.priority = d.standing.priority := by
      rw [hstanding, hset₂, hset₁]
      simp [Call.sets]
      split <;> rfl
    exact hpriority
  · rintro rfl
    rw [Kernel.continuation?_eq_standing, hs₂, hset₂, hcurrent]
    simp [Call.sets, Arena.resolve_locate]

/-- A process in a ready queue has the priority of its level. -/
theorem priority_of_line (h : Run Call.Proper config steps k) {l : Level} (hq : q ∈ k.line l) :
    ∃ d, k.process? q = some d ∧ d.priority.level? = some l := by
  obtain ⟨P, hk, hrest⟩ := h.resting
  rw [← hk.line] at hq
  obtain ⟨-, -, e, he, -, hlevel⟩ := hrest.sound.of_ready hq
  obtain ⟨d, hd, rfl⟩ := hk.get he
  exact ⟨d, hd, hlevel⟩

/-- The first one in a queue that goes by arrival has been ready for longest. -/
theorem longestReady_of_head (h : Run Call.Proper config steps k) (hfifo : config.policy = .fifo) {l : Level}
    {rest : List Pid} (head : k.line l = p :: rest) : k.LongestReady steps l p := by
  have horders := h.lined.orders l
  rw [hfifo, head] at horders
  refine ⟨(h.linesUp l p).mp (by simp [head]), fun q hne hq => ?_⟩
  have hmem : q ∈ p :: rest := head ▸ (h.linesUp l q).mpr hq
  exact (List.pairwise_cons.mp horders).1 q ((List.mem_cons.mp hmem).resolve_left hne)

section
variable (h : Run Call.Admissible config steps k) {d c : Descriptor} (hp : k.process? p = some d)
  (waits : d.state = .receiving) (wants : d.filter.accepts .interrupt = true)
include h hp waits wants

/-- The interrupt and the switch after it return. -/
theorem preempts {P : Plain} (hk : k.Shows P) (hrest : P.Rests) (hc : k.process? k.current = some c)
    (below : .handler < c.priority) (psp : Word) :
    P.accepts p .interrupt = true ∧ ∃ k₁ k₂ addr, (k.call (.interrupt p)).outcome = .ok (.flag true, k₁) ∧
      (k₁.call (.preempt psp)).outcome = .ok (.address addr, k₂) ∧ k₁.current = k.current ∧
      k₂.Shows ((P.interrupt p).preempt psp) := by
  have haccepts : P.accepts p .interrupt = true := by
    rw [hk.accepts hp]
    simp [Descriptor.accepts, waits, wants]
  have hless : P.lessUrgent = true := by
    rw [Plain.lessUrgent, hk.current, hk.process_eq hc]
    exact decide_eq_true below
  have halive : k.table.lookup p.destination = .ok p :=
    hk.lookup_destination hrest.sound (hk.process_eq hp) (by simp [waits])
  have hrunning : (P.interrupt p).running = true := by
    rw [(P.interrupt_ground p).running, hk.running]
    exact h.running_of_receiving (Kernel.stance_eq hp) waits
  obtain ⟨k₁, hok₁, -, hk₁⟩ := hk.interrupt_of_lookup hrest halive
  obtain ⟨k₂, hok₂, -, hk₂⟩ := hk₁.preempt ((hrest.counted _).alert p) hrunning psp
  rw [haccepts, hless] at hok₁
  refine ⟨haccepts, k₁, k₂, _, Traced.bind_eq_ok.mpr ⟨_, hok₁, rfl⟩, Traced.bind_eq_ok.mpr ⟨_, hok₂, rfl⟩, ?_, hk₂⟩
  rw [← hk₁.current, ← hk.current]
  exact (hrest.course_interrupt haccepts).current

end

end Run

/-- An interrupt brings its handler to the processor, and nobody is lost. In every kernel that a run reaches, an
interrupt for a handler that waits for it says that the current process has to give way if that is no handler. Switching
away from it then lets a handler run: the one that was told if no other is ready, and of those that were ready before it
the eldest one, under the first policy. The one that was told has the message and no deadline; the one that gave way is
ready in its own queue, and will resume where it was; and nobody else is in another state than before. -/
theorem interrupt_brings_handler {config : Config} {steps : List Step} {k : Kernel}
    (h : Run Call.Admissible config steps k) {p : Pid} {d c : Descriptor} (hp : k.process? p = some d)
    (waits : d.state = .receiving) (wants : d.filter.accepts .interrupt = true) (handler : d.priority = .handler)
    (hc : k.process? k.current = some c) (below : .handler < c.priority) (psp : Word) :
    ∃ k₁ k₂ addr, (k.call (.interrupt p)).outcome = .ok (.flag true, k₁) ∧
      (k₁.call (.preempt psp)).outcome = .ok (.address addr, k₂) ∧ k.Relieved steps config.policy p psp k₂ := by
  obtain ⟨P, hk, hrest, ht⟩ := h.proper.timed
  obtain ⟨haccepts, k₁, k₂, addr, hinterrupt, hpreempt, hcurrent, hk₂⟩ := h.preempts hp waits wants hk hrest hc below psp
  obtain ⟨htold, hothers⟩ := hk.stance_preempted hrest hk₂ (Kernel.stance_eq hp)
    (by simp [Stance.accepts, Descriptor.stance, waits, wants])
  have hpolicy : P.policy = config.policy := hk.policy.trans h.proper.policy_eq
  have hgoes : ∀ {q e l}, k.process? q = some e → (goesTo k.rank l q = true ↔ e.priority.level? = some l) := by
    intro q e l he
    simp [goesTo, Kernel.rank, he, Descriptor.rank]
  have hlevel : d.priority.level? = some .handler := by
    rw [handler]
    rfl
  have hnot : c.priority.level? ≠ some .handler := fun hl => by
    rw [Priority.eq_of_level? hl (b := .handler) rfl] at below
    exact absurd below (by decide)
  have hrelieved := hrest.relieved ht haccepts psp
  rw [hk.rank, hk.current, hpolicy, hk.line, hk₂.line, hk₂.current] at hrelieved
  obtain ⟨rest, hperm, hfifo, hqueued⟩ := hrelieved ((hgoes hp).mpr hlevel)
    (Bool.eq_false_iff.mpr fun hl => hnot ((hgoes hc).mp hl))
  have hkeeps : ∀ {q e}, k.process? q = some e → _ := fun he =>
    h.proper.standing_preempted hinterrupt hpreempt hcurrent he
  refine ⟨k₁, k₂, addr, hinterrupt, hpreempt, ?_, fun hnone => ?_, fun hfirst hsome => ?_, ?_, fun hne => ?_, ?_, hothers⟩
  -- A handler runs: the one that was told, or one that was ready.
  · obtain ⟨e, he, hpriority⟩ : ∃ e, k.process? k₂.current = some e ∧ e.priority.level? = some .handler := by
      rcases List.mem_cons.mp (hperm.mem_iff.mp List.mem_cons_self) with heq | hline
      · exact ⟨d, heq ▸ hp, hlevel⟩
      · exact h.proper.priority_of_line hline
    obtain ⟨e', he', hsame, -⟩ := hkeeps he
    exact ⟨e', he', hsame.trans (Priority.eq_of_level? hpriority rfl)⟩
  · -- The one that was told is alone in the first queue.
    have hempty : k.line .handler = [] :=
      List.eq_nil_iff_forall_not_mem.mpr fun q hq => hnone q ((h.proper.linesUp .handler q).mp hq)
    rw [hempty] at hperm
    exact (List.cons.inj (List.perm_singleton.mp hperm)).1
  · obtain ⟨q, hq⟩ := hsome
    cases hline : k.line .handler with
    | nil =>
      have hmem := (h.proper.linesUp .handler q).mpr hq
      simp [hline] at hmem
    | cons x others =>
      -- By arrival the one that was told is behind those that were ready before.
      have heq := hfifo hfirst
      rw [hline] at heq
      obtain rfl : k₂.current = x := (List.cons.inj heq).1
      exact h.proper.longestReady_of_head hfirst hline
  · obtain ⟨e, he, hstance⟩ := Kernel.stance_eq_some htold
    exact ⟨e, he, congrArg Stance.state hstance, congrArg Stance.slot hstance, congrArg Stance.deadline hstance⟩
  · -- The one that gives way is no handler, so it is not the one that was told.
    have hcp : k.current ≠ p := by
      intro heq
      obtain rfl := Option.some_inj.mp (hc.symm.trans (heq ▸ hp))
      exact hnot hlevel
    obtain ⟨e, he, hpriority, -⟩ := hkeeps hc
    exact ⟨c, hc, hk.standsBy hrest hk₂ hc hne he hpriority (hothers _ hcp) fun l hl => hqueued l hne ((hgoes hc).mpr hl)⟩
  · obtain ⟨-, -, -, hresumes⟩ := hkeeps hc
    exact hresumes rfl

/-- Two handlers wait, and the deadline of the first one passes while a third process runs. -/
def overtakenCalls : List Call :=
  [.start "first" 0 0 0, .start "second" 0 0 0, .start "worker" 0 0 0, .launch, .connect 1,
    .serve (.receive .interrupt (some 5)), .connect 2, .serve (.receive .interrupt none), .serve (.tick 6), .serve (.tick 1)]

/-- What comes of it: the first handler is ready, and nobody has given way to it. -/
def overtaken : List Step × Kernel :=
  ((Kernel.boot {}).follow Call.Admissible overtakenCalls).get (by decide +kernel)

/-- An interrupt for the second handler brings the first one to the processor, which was ready before. -/
theorem interrupt_brings_handler_overtaken : ∃ k₁ k₂ addr,
    (overtaken.2.call (.interrupt ⟨2⟩)).outcome = .ok (.flag true, k₁) ∧
      (k₁.call (.preempt 64)).outcome = .ok (.address addr, k₂) ∧
      overtaken.2.LongestReady overtaken.1 .handler k₂.current ∧ k₂.continuation? ⟨3⟩ = some 64 := by
  have hrun : Run Call.Admissible {} overtaken.1 overtaken.2 := Run.of_boot (Option.some_get _).symm
  have hwaits : (overtaken.2.process? ⟨2⟩).map (fun d => (d.state, d.filter, d.priority)) =
      some (.receiving, .interrupt, .handler) := by decide +kernel
  have hruns : (overtaken.2.process? overtaken.2.current).map (·.priority) = some .low := by decide +kernel
  have hready : overtaken.2.table.linkOf ⟨1⟩ = some (.ready .handler) := by decide +kernel
  have hcurrent : overtaken.2.current = ⟨3⟩ := by decide +kernel
  obtain ⟨d, hd, hfields⟩ := Option.map_eq_some_iff.mp hwaits
  obtain ⟨c, hc, hlow⟩ := Option.map_eq_some_iff.mp hruns
  obtain ⟨hstate, hrest⟩ := Prod.mk.inj hfields
  obtain ⟨hfilter, hpriority⟩ := Prod.mk.inj hrest
  obtain ⟨k₁, k₂, addr, hinterrupt, hpreempt, hrelieved⟩ := interrupt_brings_handler hrun hd hstate
    (by rw [hfilter]; decide) hpriority hc (by rw [hlow]; decide) 64
  exact ⟨k₁, k₂, addr, hinterrupt, hpreempt, hrelieved.eldest rfl ⟨_, hready⟩, hcurrent ▸ hrelieved.resumes⟩

end Rendezvous
