import Rendezvous.Proofs.Control
import Rendezvous.Proofs.Standings

/-! # What a call does to the standings

All that one call can make of what the processes are given, of their interrupts and of their plights, whatever
state the kernel is in. -/

namespace Rendezvous

/-- What the process that runs sets for itself by a call. -/
def Call.sets : Call → Standing → Standing
  | .connect _, s => { s with priority := .handler }
  | .setPriority level, s => { s with priority := level }
  | .trap psp _, s | .preempt psp, s => { s with context := Arena.locate psp }
  | _, s => s

/-- Process `i` as it is started: it resumes at the frame at the top of its stack. -/
structure Standing.Started (s : Standing) (i : Nat) : Prop where
  room : i < Limits.processes
  pid : s.pid = .ofIndex i
  context : s.context = .arena (s.stack.base + (s.stack.words - Frame.words))
  clear : s.pending = false

theorem modify_concat {α : Type} (l : List α) (a : α) (f : α → α) : (l ++ [a]).modify l.length f = l ++ [f a] := by
  simp [List.modify_eq_take_cons_drop]

theorem getElem?_of_concat {α : Type} {l : List α} {a b : α} {i : Nat} (h : (l ++ [a])[i]? = some b) :
    l[i]? = some b ∨ i = l.length ∧ b = a := by
  rw [getElem?_concat] at h
  by_cases hi : i = l.length
  · rw [if_pos hi] at h
    exact .inr ⟨hi, (Option.some_inj.mp h).symm⟩
  · rw [if_neg hi] at h
    exact .inl h

/-- Process `p` has been created behind all the others, with a stack of its own. -/
structure Table.Created (t : Table) (name : String) (bytes : Nat) (p : Pid) (t' : Table) : Prop where
  room : t.size < Limits.processes
  words : stackWords bytes ≤ Limits.arenaWords - t.frontier
  pid : p = .ofIndex t.size
  processes : t'.processes = t.processes ++ [.fresh p name ⟨t.frontier, stackWords bytes⟩]

theorem Table.create_yields (t : Table) (name : String) (bytes : Nat) :
    Yields (t.create name bytes).outcome fun p => t.Created name bytes p (t.create name bytes).state := by
  unfold Table.create
  dsimp only
  split
  · exact .error _
  · rename_i hsize
    split
    · exact .error _
    · rename_i hfree
      have hroom : stackWords bytes ≤ Limits.arenaWords - t.frontier :=
        Nat.le_of_mul_le_mul_right (Nat.le_of_not_lt hfree) (by decide)
      exact .ok ⟨Nat.lt_of_not_le hsize, hroom, rfl, rfl⟩

namespace Table.Created

variable {t t' : Table} {name : String} {bytes : Nat} {p : Pid} (h : t.Created name bytes p t')
include h

theorem index : p.index = t.processes.length := by
  rw [h.pid]
  exact Pid.index_ofIndex (Nat.lt_trans h.room (by decide))

theorem fetched : t'.get? p = some (.fresh p name ⟨t.frontier, stackWords bytes⟩) := by
  rw [get?, h.processes, h.index, List.getElem?_concat_length]

/-- A process is created in no plight. -/
theorem spares (gr : Grant) : t.Spares gr t' := by
  rintro q x ⟨d, hd, hx⟩
  rw [get?, h.processes] at hd
  rcases getElem?_of_concat hd with hd | ⟨-, rfl⟩
  · exact .inl ⟨d, hd, hx⟩
  · cases x <;> cases hx

theorem standings (g : Standing → Standing) : (t'.processes.map Descriptor.standing).modify p.index g =
    t.processes.map Descriptor.standing ++ [g (Descriptor.fresh p name ⟨t.frontier, stackWords bytes⟩).standing] := by
  have hlength : (t.processes.map Descriptor.standing).length = p.index := by rw [List.length_map, h.index]
  rw [h.processes, List.map_append, ← hlength]
  exact modify_concat _ _ g

end Table.Created

namespace Kernel

open Traced

/-- The standing of a process, if there is such a process. -/
def standing? (k : Kernel) (p : Pid) : Option Standing := k.standings[p.index]?

/-- The pid of each process is its place in the table. -/
def Numbered (k : Kernel) : Prop := ∀ (i : Nat) (s : Standing), k.standings[i]? = some s → s.pid.index = i

/-- The kernel with one more interrupt in its count. -/
def raised (k : Kernel) : Kernel :=
  { k with counters := { k.counters with interrupts := k.counters.interrupts + 1 } }

/-- A call makes a process die only if it is the exit of that process, and wait for another one only if it is a
    message of the former to the latter. -/
def grant (k : Kernel) (c : Call) : Grant
  | p, .dead => p = k.current ∧ c.request? = some .exit
  | p, .waiting dest => p = k.current ∧ ∃ register msg, k.table.lookup register = .ok dest ∧
      (c.request? = some (.send register msg) ∨ c.request? = some (.sendRec register msg))

/-- The plights that a request may bring about are granted. -/
def Permits (k : Kernel) (gr : Grant) : Request → Prop
  | .exit => gr k.current .dead
  | .send register _ | .sendRec register _ =>
    ∀ dest, k.table.lookup register = .ok dest → gr k.current (.waiting dest)
  | _ => True

/-- The pending interrupt of the process that runs goes into its slot. -/
structure Takes (k : Kernel) (gr : Grant) (k' : Kernel) (g : Standing → Standing) (es : List Event) : Prop where
  pending : ∃ s, k.standing? k.current = some s ∧ s.pending = true
  alters : k.Alters gr k.current (fun s => { g s with pending := false }) k'
  message : k'.message? k.current = some (.new .interrupt)
  alerts : es = [.notified k.current .interrupt]

/-- All that a call can make of the standings, and its alerts. -/
inductive Handles (k : Kernel) (c : Call) (k' : Kernel) : List Event → Prop
  | quietly (unsignalled : c.signal? k.lines = none) (alters : k.Alters (k.grant c) k.current c.sets k') :
      Handles k c k' []
  | starts (s : Standing) (call : ∃ name size entry arg, c = .start name size entry arg)
      (started : s.Started k.table.size) (standings : k'.standings = k.standings ++ [s])
      (interrupts : k'.counters.interrupts = k.counters.interrupts)
      (coalesced : k'.counters.coalesced = k.counters.coalesced)
      (spares : k.table.Spares (k.grant c) k'.table) : Handles k c k' []
  | takes {es : List Event} (unsignalled : c.signal? k.lines = none) (takes : k.Takes (k.grant c) k' c.sets es) :
      Handles k c k' es
  /-- An interrupt finds its process waiting for it. -/
  | delivers (p : Pid) (signal : c.signal? k.lines = some p) (keeps : k.raised.Keeps (k.grant c) k')
      (message : k'.message? p = some (.new .interrupt)) : Handles k c k' [.notified p .interrupt]
  | flags (p : Pid) (s : Standing) (signal : c.signal? k.lines = some p) (found : k.standing? p = some s)
      (clear : s.pending = false) (alters : k.raised.Alters (k.grant c) p (fun s => { s with pending := true }) k') :
      Handles k c k' []
  /-- An interrupt finds an earlier one pending. -/
  | coalesces (p : Pid) (s : Standing) (signal : c.signal? k.lines = some p) (found : k.standing? p = some s)
      (pending : s.pending = true) (standings : k'.standings = k.standings)
      (interrupts : k'.counters.interrupts = k.counters.interrupts + 1)
      (coalesced : k'.counters.coalesced = k.counters.coalesced + 1)
      (spares : k.table.Spares (k.grant c) k'.table) : Handles k c k' [.coalesced p]

variable {k k₁ k' : Kernel} {gr : Grant} {p q : Pid} {g : Standing → Standing} {es : List Event} {c : Call}

theorem standing?_eq (k : Kernel) (p : Pid) : k.standing? p = (k.process? p).map Descriptor.standing :=
  List.getElem?_map ..

theorem standing?_eq_none : k.standing? p = none ↔ k.table.size ≤ p.index := by
  rw [standing?, List.getElem?_eq_none_iff, standings, List.length_map]
  rfl

theorem Alters.standing? (h : k.Alters gr p g k') (q : Pid) :
    k'.standing? q = if q = p then (k.standing? q).map g else k.standing? q := by
  rw [Kernel.standing?, h.standings, Kernel.standing?]
  by_cases hq : q = p
  · rw [hq, if_pos rfl, List.getElem?_modify_eq]
    rfl
  · rw [if_neg hq, List.getElem?_modify_ne _ _ fun hi => hq (Pid.index_inj.mp hi).symm]

theorem standing?_concat {s : Standing} (h : k'.standings = k.standings ++ [s]) (q : Pid) :
    k'.standing? q = if q.index = k.table.size then some s else k.standing? q := by
  have hlength : k.standings.length = k.table.size := List.length_map ..
  rw [standing?, h, ← hlength, getElem?_concat, standing?]

/-! ### Requests -/

/-- What a request makes of the standings. -/
def Serves (k : Kernel) (gr : Grant) (k' : Kernel) (es : List Event) : Prop :=
  k.Keeps gr k' ∧ es = [] ∨ k.Takes gr k' id es

theorem serves_of_quietly {x : Traced Kernel} (h : x.Quietly (k.Keeps gr)) : x.Tells (k.Serves gr) :=
  fun k' hk' => .inl (h k' hk')

theorem fetch_quietly (k : Kernel) (p : Pid) : (k.fetch p).Quietly fun d => k.process? p = some d :=
  quietly_lift fun _ hd => Table.fetch_eq_ok.mp hd

theorem resume_quietly (k : Kernel) : k.resume.Quietly fun w => k.continuation? k.current = some w :=
  (fetch_quietly k k.current).bind fun d hd => quietly_pure (by rw [continuation?, hd, Option.map_some])

theorem notify_alert (gr : Grant) (k : Kernel) (p : Pid) : (k.notify p .interrupt).Tells fun k' es =>
    k.Keeps gr k' ∧ k'.message? p = some (.new .interrupt) ∧ es = [.notified p .interrupt] := by
  unfold notify
  refine (k.amend_quietly p _).bind_tells ?_
  rintro _ ⟨d, hp, rfl⟩ k' hk'
  obtain rfl := Except.ok.inj hk'
  have hkeeps : k.Keeps gr { k with table := k.table.put p { d with slot := some (.new .interrupt) } } :=
    keeps_put hp rfl fun _ => .inl
  refine ⟨⟨hkeeps.standings, rfl, rfl, hkeeps.spares⟩, ?_, rfl⟩
  have hput := process?_put hp { d with slot := some (.new .interrupt) }
  exact congrArg (Option.bind · (·.slot)) hput

theorem receive_serves (k : Kernel) (filter : MessageType) (timeout : Option UInt32) :
    (k.receive filter timeout).Tells (k.Serves gr) := by
  unfold receive beginReceive
  simp only [bind_assoc]
  refine (k.amend_quietly k.current _).bind_tells ?_
  rintro k₁ ⟨d, hp, hk₁⟩
  have h₁ : k.Keeps gr k₁ := hk₁ ▸ keeps_put hp rfl fun _ => .inl
  have hown : k₁.process? k.current = some { d with slot := none } := hk₁ ▸ process?_put hp _
  refine (fetch_quietly k₁ k.current).bind_tells fun own hfetch => ?_
  obtain rfl := Option.some_inj.mp (hown.symm.trans hfetch)
  split
  · rename_i hinterrupt
    have hpending : d.pending = true := (Bool.and_eq_true _ _ ▸ hinterrupt).1
    simp only [bind_assoc, pure_bind, Stage.finish, bind_pure]
    refine (k₁.amend_quietly k.current _).bind_tells ?_
    rintro k₂ ⟨own, hfound, hk₂⟩
    have h₂ : k₁.Alters gr k.current (fun s => { s with pending := false }) k₂ :=
      hk₂ ▸ alters_put hfound rfl fun _ => .inl
    refine (notify_alert gr k₂ k.current).mono fun k' es h' => .inr ?_
    obtain ⟨hkeeps, hmessage, hes⟩ := h'
    have hstanding : k.standing? k.current = some d.standing := by rw [standing?_eq, hp, Option.map_some]
    exact ⟨⟨d.standing, hstanding, hpending⟩, ((h₁.alters _).trans h₂).keeps hkeeps, hmessage, hes⟩
  -- Without a pending interrupt, no alert is given at all.
  refine serves_of_quietly (Quietly.bind (P := fun s => k.Keeps gr s.kernel) ?_ fun s h => h.quietly (finish_keeps gr s))
  refine (h₁.quietly (nextSender_keeps gr k₁ filter)).bind ?_
  rintro ⟨src, k₂⟩ h₂
  cases src with
  | some src => exact (beginAccept_keeps gr k₂ src).mono fun s h₃ => h₂.trans h₃
  | none =>
    dsimp only
    split
    · exact (h₂.quietly (notify_keeps gr k₂ k.current (by decide))).bind fun k₃ h₃ => quietly_pure h₃
    · refine (h₂.quietly (block_keeps gr k₂ filter timeout)).bind fun k₃ h₃ => ?_
      exact (h₃.quietly (reschedule_keeps gr k₃)).bind fun k₄ h₄ => quietly_pure h₄

theorem dumpToLog_quietly (k : Kernel) : k.dumpToLog.Quietly fun _ => True := by
  have hlines : ∀ l : List Descriptor,
      (l.forM fun d => Traced.emit (.dumped (k.dumpLine d)) : Traced PUnit).Quietly fun _ => True := fun l => by
    induction l with
    | nil => exact quietly_pure trivial
    | cons d l ih => exact tells_emit rfl ih
  exact tells_emit rfl ((hlines k.table.processes).bind fun _ _ _ _ => ⟨trivial, rfl⟩)

theorem perform_serves (k : Kernel) {r : Request} (hr : k.Permits gr r) : (k.perform r).Tells (k.Serves gr) := by
  cases r with
  | yield => exact serves_of_quietly (rescheduled (makeReady_keeps gr k k.current))
  | send dest msg => exact serves_of_quietly (send_keeps gr k hr msg)
  | receive filter timeout => exact receive_serves k filter timeout
  | sendRec dest msg => exact serves_of_quietly (sendRec_keeps gr k hr msg)
  | exit =>
    refine serves_of_quietly ?_
    show k.exit.Quietly _
    unfold exit
    dsimp only
    split
    · exact tells_skip fun _ => tells_halt
    · have hdies : ∀ (d : Descriptor) x, ({ d with state := .dead } : Descriptor).Suffers x →
          d.Suffers x ∨ gr k.current x := fun d x hx => by
        cases x with
        | dead => exact .inr hr
        | waiting dest => exact .inl hx
      refine .bind (k.amend_keeps gr k.current (fun _ => rfl) hdies) fun k₁ h₁ => ?_
      exact tells_emit rfl (h₁.quietly (reschedule_keeps gr k₁))
  | dump =>
    refine serves_of_quietly ?_
    show (k.dumpToLog >>= fun _ => pure k).Quietly _
    exact k.dumpToLog_quietly.bind fun _ _ => quietly_pure (.refl k gr)
  | tick ms => exact serves_of_quietly (tick_keeps gr k ms)

theorem note_quietly (k : Kernel) (r : Request) : (k.note r).Quietly fun k₁ =>
    k₁ = { k with counters := { k.counters with syscalls := k.counters.syscalls + 1 } } :=
  tells_emit rfl (quietly_pure rfl)

theorem serve_serves (k : Kernel) {r : Request} (hr : k.Permits gr r) :
    (k.serve r).Tells fun a es => k.Serves gr a.2 es := by
  unfold serve
  have hcounted : ∀ counters, Permits { k with counters := counters } gr r := fun _ => hr
  refine (note_quietly k r).bind_tells ?_
  rintro _ rfl
  refine (perform_serves _ (hcounted _)).bind_quietly fun k' es h' => ?_
  refine (resume_quietly k').bind fun w _ => quietly_pure ?_
  cases h' with
  | inl h' => exact .inl ⟨⟨h'.1.standings, h'.1.interrupts, h'.1.coalesced, h'.1.spares⟩, h'.2⟩
  | inr h' =>
    obtain ⟨pending, alters, message, alerts⟩ := h'
    exact .inr ⟨pending, ⟨alters.standings, alters.interrupts, alters.coalesced, alters.spares⟩, message, alerts⟩

/-- A call grants what its request may bring about. -/
theorem permits_grant {r : Request} (hr : c.request? = some r) (hcurrent : k₁.current = k.current)
    (hlookup : ∀ register, k₁.table.lookup register = k.table.lookup register) : k₁.Permits (k.grant c) r := by
  cases r with
  | exit => exact ⟨hcurrent, hr⟩
  | send register msg =>
    exact fun dest hdest => ⟨hcurrent, register, msg, (hlookup register).symm.trans hdest, .inl hr⟩
  | sendRec register msg =>
    exact fun dest hdest => ⟨hcurrent, register, msg, (hlookup register).symm.trans hdest, .inr hr⟩
  | yield | receive _ _ | dump | tick _ => trivial

/-! ### What the process that runs sets for itself -/

theorem saveContext_quietly (gr : Grant) (k : Kernel) (psp : Word) : (k.saveContext psp).Quietly fun k' =>
    k.Alters gr k.current (fun s => { s with context := Arena.locate psp }) k' ∧ k'.current = k.current ∧
      ∀ register, k'.table.lookup register = k.table.lookup register := by
  refine (k.amend_quietly k.current _).mono ?_
  rintro _ ⟨d, hp, rfl⟩
  refine ⟨alters_put hp rfl fun _ => .inl, rfl, Table.lookup_put hp ?_ ?_⟩
  · rfl
  · rfl

theorem openTrap_quietly (gr : Grant) (k : Kernel) (psp : Word) (frame : TrapFrame) :
    (k.openTrap psp frame).Quietly fun a =>
      k.Alters gr k.current (fun s => { s with context := Arena.locate psp }) a.1 ∧ a.1.current = k.current ∧
        (∀ register, a.1.table.lookup register = k.table.lookup register) ∧ frame.decode = .ok a.2 := by
  unfold openTrap
  refine (saveContext_quietly gr k psp).bind ?_
  rintro k₁ ⟨h₁, hcurrent, hlookup⟩
  refine tells_skip fun intact => ?_
  split
  · exact (quietly_orHalt fun _ hr => hr).bind fun r hr => quietly_pure ⟨h₁, hcurrent, hlookup, hr⟩
  · exact tells_halt

theorem trap_handles (k : Kernel) (psp : Word) (frame : TrapFrame) :
    (k.trap psp frame).Tells fun a es => k.Handles (.trap psp frame) a.2 es := by
  refine (openTrap_quietly (k.grant (.trap psp frame)) k psp frame).bind_tells ?_
  rintro ⟨k₁, r⟩ ⟨h₁, hcurrent, hlookup, hr⟩
  have hrequest : Call.request? (.trap psp frame) = some r := by
    rw [Call.request?, hr]
    rfl
  refine (serve_serves k₁ (permits_grant hrequest hcurrent hlookup)).mono fun a es h => ?_
  cases h with
  | inl h =>
    obtain ⟨hkeeps, rfl⟩ := h
    exact .quietly rfl (h₁.keeps hkeeps)
  | inr h =>
    obtain ⟨⟨s₁, hfound, hpending⟩, halters, hmessage, halerts⟩ := h
    -- The interrupt that is pending once the stack pointer is kept was pending before.
    rw [hcurrent] at hfound halters hmessage halerts
    rw [h₁.standing?, if_pos rfl, Option.map_eq_some_iff] at hfound
    obtain ⟨s, hs, rfl⟩ := hfound
    exact .takes rfl ⟨⟨s, hs, hpending⟩, h₁.trans halters, hmessage, halerts⟩

theorem preempt_quietly (gr : Grant) (k : Kernel) (psp : Word) : (k.preempt psp).Quietly fun a =>
    k.Alters gr k.current (fun s => { s with context := Arena.locate psp }) a.2 := by
  unfold preempt
  refine (saveContext_quietly gr k psp).bind ?_
  rintro k₁ ⟨h₁, -⟩
  refine (makeReady_keeps gr k₁ k₁.current).bind fun k₂ h₂ => ?_
  refine (h₂.quietly (reschedule_keeps gr k₂)).bind fun k₃ h₃ => ?_
  exact (resume_quietly k₃).bind fun w _ => quietly_pure (h₁.keeps h₃)

theorem connect_quietly (gr : Grant) (k : Kernel) (irq : Int32) : (k.connect irq).Quietly fun k' =>
    k.Alters gr k.current (fun s => { s with priority := .handler }) k' := by
  unfold connect
  split
  · refine (quietly_settle (P := fun _ => True) fun _ _ => trivial).bind ?_
    rintro ⟨_, lines⟩ -
    have hamend : ∀ k₀ : Kernel, (k₀.amend k.current fun d => { d with priority := .handler }).Quietly
        (k₀.Alters gr k.current fun s => { s with priority := .handler }) := fun k₀ =>
      amend_alters k₀ k.current (fun _ => rfl) fun _ _ => .inl
    refine (hamend _).bind fun k₁ h₁ => tells_emit rfl (quietly_pure ?_)
    exact ⟨h₁.standings, h₁.interrupts, h₁.coalesced, h₁.spares⟩
  · exact tells_halt

theorem setPriority_quietly (gr : Grant) (k : Kernel) (level : Priority) : (k.setPriority level).Quietly fun k' =>
    k.Alters gr k.current (fun s => { s with priority := level }) k' := by
  unfold setPriority
  split
  · split
    · exact amend_alters k k.current (fun _ => rfl) fun _ _ => .inl
    · exact tells_halt
  · exact tells_halt

/-! ### Starting, launching and what reaches into the kernel from outside -/

theorem launch_quietly (gr : Grant) (k : Kernel) : k.launch.Quietly fun a => k.Keeps gr a.2 := by
  unfold launch
  refine tells_emit rfl ((reschedule_keeps gr _).bind fun k₁ h₁ => ?_)
  refine (resume_quietly k₁).bind fun w _ => quietly_pure ?_
  exact ⟨h₁.standings, h₁.interrupts, h₁.coalesced, h₁.spares⟩

theorem takeMessage_quietly (gr : Grant) (k : Kernel) (p : Pid) :
    (k.takeMessage p).Quietly fun a => k.Keeps gr a.2 := by
  unfold takeMessage
  split
  · exact quietly_pure (.refl k gr)
  · exact .bind (k.amend_keeps gr p (fun _ => rfl) fun _ _ => .inl) fun k₁ h₁ => quietly_pure h₁

theorem pokeStack_quietly (gr : Grant) (k : Kernel) (p : Pid) (i : Nat) (value : Word) :
    (k.pokeStack p i value).Quietly (k.Keeps gr) := by
  have hpoke : Yields (k.table.pokeStack p i value) fun t => t.processes = k.table.processes := by
    unfold Table.pokeStack
    refine .skip fun d => ?_
    split
    · exact .ok rfl
    · exact .error _
  refine quietly_lift (hpoke.map fun t ht => ⟨congrArg (List.map Descriptor.standing) ht, rfl, rfl, ?_⟩)
  rintro q x ⟨d, hd, hx⟩
  rw [Table.get?, ht] at hd
  exact .inl ⟨d, hd, hx⟩

/-- The first frame goes to the top of a stack. -/
theorem install?_offset {frame : List Word} {a : Arena} {base words offset : Nat} {content : List Word}
    (hwords : words ≤ Limits.arenaWords - base)
    (h : Frame.install? frame (a.slice ⟨base, words⟩) = some (offset, content)) : offset = words - frame.length := by
  have hlength : (a.slice ⟨base, words⟩).length = words := by
    rw [Arena.slice, List.length_take, List.length_drop, a.length_words, Nat.min_eq_left hwords]
  unfold Frame.install? at h
  split at h
  · rw [← (Prod.mk.inj (Option.some_inj.mp h)).1, hlength]
  · cases h

/-- What a new process is given when it starts. -/
def newcomer (k : Kernel) (name : String) (size : Nat) : Standing where
  pid := .ofIndex k.table.size
  name := Name.clip name
  stack := ⟨k.table.frontier, stackWords (stackSize size)⟩
  context := .arena (k.table.frontier + (stackWords (stackSize size) - Frame.words))
  priority := .low
  pending := false

/-- There was room for one more process, and it has been put behind all the others. -/
structure Brings (k : Kernel) (gr : Grant) (name : String) (size : Nat) (k' : Kernel) : Prop where
  room : k.table.size < Limits.processes
  words : stackWords (stackSize size) ≤ Limits.arenaWords - k.table.frontier
  standings : k'.standings = k.standings ++ [k.newcomer name size]
  interrupts : k'.counters.interrupts = k.counters.interrupts
  coalesced : k'.counters.coalesced = k.counters.coalesced
  spares : k.table.Spares gr k'.table

theorem start_brings (gr : Grant) (k : Kernel) (name : String) (size : Nat) (entry arg : Word) :
    (k.start name size entry arg).Quietly fun a => k.Brings gr name size a.2 := by
  unfold start
  split
  · exact tells_halt
  · have hcreate : (k.settle (k.table.create name (stackSize size))).Quietly fun r =>
        k.table.Created name (stackSize size) r.1 r.2 := quietly_settle (k.table.create_yields name _)
    refine hcreate.bind ?_
    rintro ⟨p, t⟩ hcreated
    refine (quietly_lift (P := fun d => t.get? p = some d) fun d => Table.fetch_eq_ok.mp).bind fun d hd => ?_
    obtain rfl := Option.some_inj.mp (hcreated.fetched.symm.trans hd)
    dsimp only
    split
    · exact fun _ ha => by cases ha
    · rename_i offset content hframe
      have hamend : ∀ k₀ : Kernel,
          (k₀.amend p fun d => { d with context := .arena (k.table.frontier + offset) }).Quietly
            (k₀.Alters gr p fun s => { s with context := .arena (k.table.frontier + offset) }) := fun k₀ =>
        amend_alters k₀ p (fun _ => rfl) fun _ _ => .inl
      refine (hamend _).bind fun k₁ h₁ => ?_
      refine (makeReady_keeps gr k₁ p).bind fun k₂ h₂ => tells_emit rfl ?_
      have hstarted := h₁.keeps h₂
      have hstandings := hstarted.standings.trans (hcreated.standings _)
      have hoffset := install?_offset hcreated.words hframe
      refine quietly_pure ⟨hcreated.room, hcreated.words, hstandings.trans ?_, hstarted.interrupts, hstarted.coalesced,
        (hcreated.spares gr).trans hstarted.spares⟩
      rw [hoffset, hcreated.pid]
      rfl

theorem start_handles (k : Kernel) (name : String) (size : Nat) (entry arg : Word) :
    (k.start name size entry arg).Tells fun a es => k.Handles (.start name size entry arg) a.2 es := by
  refine Tells.mono (start_brings (k.grant (.start name size entry arg)) k name size entry arg) ?_
  rintro a _ ⟨h, rfl⟩
  exact .starts _ ⟨name, size, entry, arg, rfl⟩ ⟨h.room, rfl, rfl, rfl⟩ h.standings h.interrupts h.coalesced h.spares

/-! ### Interrupts -/

theorem Numbered.pid (hk : k.Numbered) {i : Nat} {d : Descriptor} (hd : k.table.processes[i]? = some d) :
    d.pid.index = i :=
  hk i d.standing (by rw [standings, List.getElem?_map, hd, Option.map_some])

/-- A process that a register names is alive. -/
theorem Numbered.of_lookup (hk : k.Numbered) {register : Int32} (h : k.table.lookup register = .ok p) :
    ∃ d, k.process? p = some d ∧ d.state ≠ .dead := by
  unfold Table.lookup at h
  split at h
  · cases h
  · rename_i d hd
    obtain ⟨i, -, hi⟩ := Option.bind_eq_some_iff.mp hd
    split at h
    · cases h
    · rename_i halive
      obtain rfl := Except.ok.inj h
      refine ⟨d, ?_, by simpa [Descriptor.isDead] using halive⟩
      rw [process?, Table.get?, hk.pid hi, hi]

theorem findDest_own (hk : k.Numbered) (p : Pid) : (k.findDest p.destination).Quietly fun dest => dest = p := by
  refine quietly_orHalt fun dest hdest => ?_
  have hlt : p.index < 2 ^ 31 := Nat.lt_trans p.val.toNat_lt (by decide)
  have hnat : (p.index : Int).toNat? = some p.index := rfl
  unfold Table.lookup at hdest
  rw [Pid.destination, Int32.toInt_ofNat_of_lt hlt, hnat, Option.bind_some] at hdest
  split at hdest
  · cases hdest
  · rename_i d hd
    have hpid : d.pid = p := Pid.index_inj.mp (hk.pid hd)
    split at hdest
    · cases hdest
    · rw [← Except.ok.inj hdest, hpid]

theorem interrupt_handles (hk : k.Numbered) (hs : c.signal? k.lines = some p) :
    (k.interrupt p).Tells fun a es => k.Handles c a.2 es := by
  unfold interrupt alert
  refine (findDest_own hk p).bind_tells ?_
  rintro dest rfl
  refine (fetch_quietly k.raised dest).bind_tells fun d hd => ?_
  have hfound : k.standing? dest = some d.standing := by
    rw [standing?_eq]
    exact congrArg (Option.map Descriptor.standing) hd
  split
  · refine (cancelTimeout_keeps (k.grant c) k.raised dest).bind_tells fun k₁ h₁ => ?_
    refine (notify_alert (k.grant c) k₁ dest).bind_quietly ?_
    rintro k₂ es ⟨h₂, hmessage, rfl⟩
    refine (makeReady_rearranged (k.grant c) k₂ dest).bind ?_
    rintro k₃ ⟨ht, hc⟩
    refine (fetch_quietly k₃ k₃.current).bind fun own _ => quietly_pure ?_
    exact .delivers dest hs ((h₁.trans h₂).trans (.of_rearranged ht hc)) ((ht.slot dest).trans hmessage)
  · split
    · rename_i hpending
      intro a ha
      obtain rfl := Except.ok.inj ha
      exact .coalesces dest d.standing hs hfound hpending rfl rfl rfl (.refl k.table _)
    · rename_i hclear
      refine Quietly.bind_tells (P := k.raised.Alters (k.grant c) dest fun s => { s with pending := true })
        (amend_alters k.raised dest (fun _ => rfl) fun _ _ => .inl) fun k₁ h₁ => tells_pure ?_
      exact .flags dest d.standing hs hfound (Bool.eq_false_of_not_eq_true hclear) h₁

theorem call_handles (hk : k.Numbered) (c : Call) : (k.call c).Tells fun a es => k.Handles c a.2 es := by
  cases c with
  | start name size entry arg =>
    exact (start_handles k name size entry arg).bind_quietly fun _ _ h => quietly_pure h
  | launch => exact (launch_quietly _ k).bind_tells fun _ h => tells_pure (.quietly rfl (h.alters _))
  | connect irq => exact (connect_quietly _ k irq).bind_tells fun _ h => tells_pure (.quietly rfl h)
  | setPriority level => exact (setPriority_quietly _ k level).bind_tells fun _ h => tells_pure (.quietly rfl h)
  | serve request =>
    have hpermits : k.Permits (k.grant (.serve request)) request := permits_grant rfl rfl fun _ => rfl
    refine (serve_serves k hpermits).bind_quietly fun a es h => quietly_pure ?_
    cases h with
    | inl h =>
      obtain ⟨hkeeps, rfl⟩ := h
      exact .quietly rfl (hkeeps.alters _)
    | inr h => exact .takes rfl h
  | trap psp frame => exact (trap_handles k psp frame).bind_quietly fun _ _ h => quietly_pure h
  | preempt psp => exact (preempt_quietly _ k psp).bind_tells fun _ h => tells_pure (.quietly rfl h)
  | interrupt p => exact (interrupt_handles hk rfl).bind_quietly fun _ _ h => quietly_pure h
  | interruptRequest irq =>
    refine Tells.bind_quietly ?_ fun _ _ h => quietly_pure h
    refine (quietly_orHalt fun p hp => ?_).bind_tells fun p hp => interrupt_handles hk hp
    rw [Call.signal?, hp]
    rfl
  | takeMessage p => exact (takeMessage_quietly _ k p).bind_tells fun _ h => tells_pure (.quietly rfl (h.alters _))
  | pokeStack p i value =>
    exact (pokeStack_quietly _ k p i value).bind_tells fun _ h => tells_pure (.quietly rfl (h.alters _))

/-- Whatever a call does, it brings about no plight but those that it grants. -/
theorem Handles.spares (h : k.Handles c k' es) : k.table.Spares (k.grant c) k'.table := by
  cases h with
  | quietly _ alters => exact alters.spares
  | starts _ _ _ _ _ _ spares => exact spares
  | takes _ takes => exact takes.alters.spares
  | delivers _ _ keeps => exact keeps.spares
  | flags _ _ _ _ _ alters => exact alters.spares
  | coalesces _ _ _ _ _ _ _ _ spares => exact spares

/-! ### Numbers -/

theorem boot_numbered (config : Config) : (boot config).Numbered := by
  intro i s hs
  have hzero : i = 0 := Nat.lt_one_iff.mp (List.getElem?_eq_some_iff.mp hs).1
  subst hzero
  obtain rfl := Option.some_inj.mp hs
  rfl

theorem Alters.numbered (h : k.Alters gr p g k') (hg : ∀ s, (g s).pid = s.pid) (hk : k.Numbered) : k'.Numbered := by
  intro i s hs
  rw [h.standings, List.getElem?_modify] at hs
  obtain ⟨s₀, hs₀, rfl⟩ := Option.map_eq_some_iff.mp hs
  split
  · rw [hg]
    exact hk i s₀ hs₀
  · exact hk i s₀ hs₀

theorem Handles.numbered (h : k.Handles c k' es) (hk : k.Numbered) : k'.Numbered := by
  have hsets : ∀ s, (c.sets s).pid = s.pid := fun s => by cases c <;> rfl
  cases h with
  | quietly _ alters => exact alters.numbered hsets hk
  | takes _ takes => exact takes.alters.numbered hsets hk
  | delivers dest _ keeps => exact (keeps.alters dest).numbered (fun _ => rfl) hk
  | flags _ _ _ _ _ alters => exact alters.numbered (fun _ => rfl) hk
  | coalesces _ _ _ _ _ standings =>
    intro i s hs
    rw [standings] at hs
    exact hk i s hs
  | starts _ _ started standings =>
    intro i s hs
    rw [standings] at hs
    rcases getElem?_of_concat hs with hs | ⟨rfl, rfl⟩
    · exact hk i s hs
    · rw [started.pid, Pid.index_ofIndex (Nat.lt_trans started.room (by decide))]
      exact (List.length_map ..).symm

end Kernel

namespace Run

variable {rule : Kernel → Call → Prop} {config : Config} {steps : List Step} {k : Kernel} {s : Step}

theorem numbered (h : Run rule config steps k) : k.Numbered := by
  induction h with
  | boot => exact Kernel.boot_numbered config
  | call _ _ done ih => exact (Kernel.call_handles ih _ _ done).numbered ih

theorem handles (h : Run rule config steps k) {i : Nat} (hs : steps[i]? = some s) :
    s.before.Handles s.call s.after (s.events.filter Event.isAlert) := by
  obtain ⟨hbefore, -, done⟩ := h.step hs
  exact Kernel.call_handles hbefore.numbered s.call _ done

/-- The next call of a run brings about no plight but those that it grants. -/
theorem spares (h : Run rule config steps k) {k' : Kernel} {c : Call} {answer : Answer}
    (done : (k.call c).outcome = .ok (answer, k')) : k.table.Spares (k.grant c) k'.table :=
  (Kernel.call_handles h.numbered c _ done).spares

end Run

end Rendezvous
