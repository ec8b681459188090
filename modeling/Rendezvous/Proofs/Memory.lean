import Rendezvous.Proofs.Codec
import Rendezvous.Proofs.Handling
import Rendezvous.Proofs.Store

/-! # The memory of the stacks

Whose the stacks are, where they lie and what their words hold. Whatever state a kernel is in and whoever calls it,
this stays as it is in all calls but the start of a process and a write of the port to a stack; and of all calls only
a trap can find that a stack has overflown. -/

namespace Rendezvous

/-- What a table holds of the stacks. -/
structure Memory where
  /-- Where the stacks lie, in the order of the pids. -/
  regions : List StackRegion
  arena : Arena
  frontier : Nat

/-- The memory of a table. -/
def Table.memory (t : Table) : Memory := ⟨t.processes.map (·.stack), t.arena, t.frontier⟩

/-- The memory of the table is `m`. -/
def Memory.In (m : Memory) (t : Table) : Prop := t.memory = m

/-- The operation gives a value as `post` tells, or it stops, and no stack has overflown then but one that `broken`
tells of. -/
def Safely {α : Type} (broken : Pid → Prop) (r : Except Stop α) (post : α → Prop) : Prop :=
  match r with
  | .ok a => post a
  | .error s => ∀ p, s = .fault (.stackOverflow p) → broken p

namespace Safely

variable {α β : Type} {broken : Pid → Prop} {r : Except Stop α} {f : α → Except Stop β} {P : α → Prop} {Q : β → Prop}

theorem ok {a : α} (h : P a) : Safely broken (.ok a) P := h

theorem error {s : Stop} (hs : ∀ p, s ≠ .fault (.stackOverflow p)) : Safely broken (.error s) P :=
  fun p hp => absurd hp (hs p)

theorem bind (hr : Safely broken r P) (hf : ∀ a, P a → Safely broken (f a) Q) : Safely broken (r >>= f) Q := by
  cases r with
  | error s => exact hr
  | ok a => exact hf a hr

theorem map {g : α → β} (hr : Safely broken r P) (hg : ∀ a, P a → Q (g a)) : Safely broken (r.map g) Q := by
  cases r with
  | error s => exact hr
  | ok a => exact hg a hr

/-- A value that an operation gives is the one that it gives. -/
theorem told (hr : Safely broken r P) : Safely broken r fun a => r = .ok a := by
  cases r with
  | error s => exact hr
  | ok a => exact rfl

theorem of_ok {a : α} (h : Safely broken r P) (hr : r = .ok a) : P a := by
  rw [hr] at h
  exact h

theorem of_overflow {p : Pid} (h : Safely broken r P) (hr : r = .error (.fault (.stackOverflow p))) : broken p := by
  rw [hr] at h
  exact h p rfl

end Safely

/-- The words of a new stack: the frame at its top, and blank ones below. -/
def Frame.stack (words : Nat) (frame : List Word) : List Word :=
  List.replicate (words - frame.length) blank ++ frame

theorem Frame.length_stack {words : Nat} {frame : List Word} (h : frame.length ≤ words) :
    (Frame.stack words frame).length = words := by
  rw [Frame.stack, List.length_append, List.length_replicate, Nat.sub_add_cancel h]

theorem Frame.install?_blank {words : Nat} {frame : List Word} (h : frame.length ≤ words) :
    Frame.install? frame (List.replicate words blank) = some (words - frame.length, Frame.stack words frame) := by
  have htake : (List.replicate words blank).take (words - frame.length) =
      List.replicate (words - frame.length) blank := by
    rw [List.take_replicate, Nat.min_eq_left (Nat.sub_le ..)]
  rw [Frame.install?, List.length_replicate, if_pos h, Frame.stack, ← htake]

namespace Arena

theorem slice_overwrite (a : Arena) {base : Nat} {content : List Word}
    (h : base + content.length ≤ Limits.arenaWords) :
    (a.overwrite base content).slice ⟨base, content.length⟩ = content := by
  refine List.ext_getElem? fun i => ?_
  rw [getElem?_slice]
  by_cases hi : i < content.length
  · rw [if_pos hi, a.getElem?_overwrite h, if_pos ⟨Nat.le_add_right .., Nat.add_lt_add_left hi _⟩,
      Nat.add_sub_cancel_left]
  · rw [if_neg hi, List.getElem?_eq_none (Nat.not_lt.mp hi)]

theorem slice_clear (a : Arena) {r : StackRegion} (h : r.stop ≤ Limits.arenaWords) :
    (a.clear r).slice r = List.replicate r.words blank := by
  have hroom : r.base + (List.replicate r.words blank).length ≤ Limits.arenaWords := by
    rw [List.length_replicate]
    exact h
  have hslice := a.slice_overwrite hroom
  rwa [List.length_replicate] at hslice

end Arena

/-! ### Lists, the scheduler and the timeouts -/

namespace Table

variable {broken : Pid → Prop} {m : Memory} {t t' : Table} {p : Pid} {d d' : Descriptor}

/-- The table with one more process, whose stack has a frame at its top. -/
def build (t : Table) (name : String) (words : Nat) (frame : List Word) : Table :=
  { t.extend name words with arena := (t.extend name words).arena.overwrite t.frontier (Frame.stack words frame) }

theorem put_in (h : m.In t) (hp : t.get? p = some d) (hstack : d'.stack = d.stack) : m.In (t.put p d') := by
  have hsame := map_set_eq_modify (g := fun d : Descriptor => d.stack) (f := id) hp hstack
  rw [List.modify_id] at hsame
  rw [← h, Memory.In, memory, memory, put, hsame]

/-- The words of a stack are told by the memory. -/
theorem stack_of_memory (h : t'.memory = t.memory) (p : Pid) : t'.stack p = t.stack p := by
  have hregion : (t'.get? p).map (·.stack) = (t.get? p).map (·.stack) := by
    rw [get?, get?, ← List.getElem?_map, ← List.getElem?_map]
    exact congrArg (·.regions[p.index]?) h
  have harena : t'.arena = t.arena := congrArg Memory.arena h
  rw [stack_eq, stack_eq, hregion, harena]

section
variable (broken)

theorem fetch_safely (t : Table) (p : Pid) : Safely broken (t.fetch p) fun d => t.get? p = some d := by
  unfold fetch
  cases hp : t.get? p with
  | none => exact .error (by simp)
  | some d => exact rfl

theorem stackIntact_safely (t : Table) (p : Pid) :
    Safely broken (t.stackIntact p) fun intact => t.stackIntact p = .ok intact := by
  have hstack : Safely broken (t.stack p) fun _ => True := (t.fetch_safely broken p).map fun _ _ => trivial
  exact (hstack.map (Q := fun _ => True) fun _ _ => trivial).told

theorem update_safely (h : m.In t) (p : Pid) {f : Descriptor → Descriptor} (hf : ∀ d, (f d).stack = d.stack) :
    Safely broken (t.update p f) m.In :=
  (t.fetch_safely broken p).map fun d hd => put_in h hd (hf d)

theorem follow_safely (t : Table) (bound : Nat) (start : Option Pid) :
    Safely broken (t.follow bound start) fun _ => True := by
  induction bound generalizing start with
  | zero =>
    cases start with
    | none => exact trivial
    | some p => exact .error (by simp)
  | succ bound ih =>
    cases start with
    | none => exact trivial
    | some p => exact (t.fetch_safely broken p).bind fun d _ => (ih d.next).bind fun _ _ => trivial

theorem chain_safely (t : Table) (head : Option Pid) : Safely broken (t.chain head) fun _ => True :=
  t.follow_safely broken t.size head

theorem setNext_safely (h : m.In t) (p : Pid) (next : Option Pid) : Safely broken (t.setNext p next) m.In :=
  update_safely broken h p fun _ => rfl

theorem setWaiting_safely (h : m.In t) (dest : Pid) (head : Option Pid) : Safely broken (t.setWaiting dest head) m.In :=
  update_safely broken h dest fun _ => rfl

theorem addWaiting_safely (h : m.In t) (dest src : Pid) : Safely broken (t.addWaiting dest src) m.In := by
  unfold addWaiting
  refine .bind (update_safely broken h src fun _ => rfl) fun t₁ h₁ => ?_
  refine (t₁.fetch_safely broken dest).bind fun d _ => (t₁.chain_safely broken d.waiting).bind fun members _ => ?_
  split
  · exact setWaiting_safely broken h₁ dest _
  · exact setNext_safely broken h₁ _ _

theorem relink_safely (h : m.In t) (dest : Pid) (before after : Option Pid) :
    Safely broken (t.relink dest before after) m.In := by
  cases before with
  | none => exact setWaiting_safely broken h dest after
  | some before => exact setNext_safely broken h before after

theorem takeWaiting_safely (h : m.In t) (dest : Pid) (filter : MessageType) :
    Safely broken (t.takeWaiting dest filter) fun r => m.In r.2 := by
  unfold takeWaiting
  refine (t.fetch_safely broken dest).bind fun d _ => (t.chain_safely broken d.waiting).bind fun members _ => ?_
  split
  · exact .ok h
  · rename_i src _
    refine (t.fetch_safely broken src).bind fun e _ => (relink_safely broken h dest _ e.next).bind fun t₁ h₁ => ?_
    exact .bind (update_safely broken h₁ src fun _ => rfl) fun t₂ h₂ => .ok h₂

theorem pushBack_safely (s : Scheduler) (h : m.In t) (l : Level) (p : Pid) :
    Safely broken (s.pushBack t l p) fun r => m.In r.2 := by
  unfold Scheduler.pushBack
  dsimp only
  split
  · exact .ok h
  · exact .bind (setNext_safely broken h _ _) fun t₁ h₁ => .ok h₁

theorem insertByScore_safely (s : Scheduler) (h : m.In t) (l : Level) (p : Pid) :
    Safely broken (s.insertByScore t l p) fun r => m.In r.2 := by
  unfold Scheduler.insertByScore
  refine .bind (t.fetch_safely broken p) fun d _ => .bind (t.chain_safely broken _) fun members _ => ?_
  refine .bind (setNext_safely broken h p _) fun t₁ h₁ => ?_
  dsimp only
  split
  · exact .ok h₁
  · exact .bind (setNext_safely broken h₁ _ _) fun t₂ h₂ => .ok h₂

theorem enqueue_safely (s : Scheduler) (h : m.In t) (l : Level) (p : Pid) :
    Safely broken (s.enqueue t l p) fun r => m.In r.2 := by
  unfold Scheduler.enqueue
  split
  · exact pushBack_safely broken s h l p
  · exact insertByScore_safely broken s h l p

theorem makeReady_safely (s : Scheduler) (h : m.In t) (p : Pid) :
    Safely broken (s.makeReady t p).outcome fun _ => m.In (s.makeReady t p).state.2 := by
  unfold Scheduler.makeReady
  split
  · exact .error (by simp)
  · rename_i d hp
    split
    · exact .ok h
    · rename_i l _
      split
      · exact .error (by simp)
      · split
        · exact .error (by simp)
        · dsimp only
          have hput : m.In (t.put p { d with state := .active, next := none, link := some (.ready l) }) :=
            put_in h hp rfl
          have henqueue := enqueue_safely broken s hput l p
          split
          · rename_i e he
            rw [he] at henqueue
            exact henqueue
          · rename_i queued he
            exact henqueue.of_ok he

theorem charge_safely (s : Scheduler) (h : m.In t) (now : Nat) : Safely broken (s.charge t now) fun r => m.In r.2 := by
  unfold Scheduler.charge
  split
  · exact .ok h
  · exact .bind (update_safely broken h _ fun _ => rfl) fun t₁ h₁ => .ok h₁

theorem pop_safely (s : Scheduler) (h : m.In t) : Safely broken (s.pop t) fun r => m.In r.2.2 := by
  unfold Scheduler.pop
  split
  · exact .ok h
  · refine .bind (t.fetch_safely broken _) fun d _ => ?_
    exact .bind (update_safely broken h _ fun _ => rfl) fun t₁ h₁ => .ok h₁

theorem pick_safely (s : Scheduler) (h : m.In t) (now : Nat) : Safely broken (s.pick t now) fun r => m.In r.2.2 := by
  unfold Scheduler.pick
  refine .bind (charge_safely broken s h now) ?_
  rintro ⟨s₁, t₁⟩ h₁
  refine .bind (pop_safely broken s₁ h₁) ?_
  rintro ⟨head, s₂, t₂⟩ h₂
  exact .bind (update_safely broken h₂ _ fun _ => rfl) fun t₃ h₃ => .ok h₃

theorem setDeadline_safely (r : Timeouts) (h : m.In t) (p : Pid) (ms : UInt32) :
    Safely broken (r.set t p ms).outcome fun _ => m.In (r.set t p ms).state.2 := by
  unfold Timeouts.set
  split
  · exact .error (by simp)
  · rename_i d hp
    split
    · exact .error (by simp)
    · split
      · exact .error (by simp)
      · exact .ok (put_in h hp rfl)

theorem cancelDeadline_safely (r : Timeouts) (h : m.In t) (p : Pid) :
    Safely broken (r.cancel t p).outcome fun _ => m.In (r.cancel t p).state.2 := by
  unfold Timeouts.cancel
  split
  · exact .error (by simp)
  · rename_i d hp
    split
    · exact .error (by simp)
    · dsimp only
      split
      · exact .error (by simp)
      · split
        · exact .ok (put_in h hp rfl)
        · exact .ok (put_in h hp rfl)

theorem visit_safely (now later : Int) {s : Timeouts.Scan} (h : m.In s.table) (p : Pid) :
    Safely broken (s.visit now later p) fun s' => m.In s'.table := by
  unfold Timeouts.Scan.visit
  refine .bind (s.table.fetch_safely broken p) fun d _ => ?_
  refine .bind (update_safely broken h p fun _ => rfl) fun t₁ h₁ => ?_
  split
  · exact .ok h₁
  · exact .ok h₁

theorem scan_safely (now later : Int) (l : List Pid) {s : Timeouts.Scan} (h : m.In s.table) :
    Safely broken (l.foldlM (Timeouts.Scan.visit now later) s) fun s' => m.In s'.table := by
  induction l generalizing s with
  | nil => exact .ok h
  | cons p l ih =>
    rw [List.foldlM_cons]
    exact .bind (visit_safely broken now later h p) fun s' h' => ih h'

theorem tick_safely (r : Timeouts) (h : m.In t) (ms : UInt32) : Safely broken (r.tick t ms) fun a => m.In a.2.2 := by
  unfold Timeouts.tick
  dsimp only
  split
  · exact .ok h
  · split
    · exact .ok h
    · exact .bind (scan_safely broken r.ticks _ r.entries (s := ⟨[], [], none, t⟩) h) fun s hs => .ok hs

theorem pokeStack_safely (t : Table) (p : Pid) (i : Nat) (value : Word) :
    Safely broken (t.pokeStack p i value) fun _ => True := by
  unfold pokeStack
  refine (t.fetch_safely broken p).bind fun d _ => ?_
  split
  · exact .ok trivial
  · exact .error (by simp)

theorem lookup_ne_overflow (t : Table) (dest : Int32) {f : Fault} (h : t.lookup dest = .error f) (p : Pid) :
    f ≠ .stackOverflow p := by
  unfold lookup at h
  split at h
  · cases h
    simp
  · split at h
    · cases h
      simp
    · cases h

end

end Table

/-! ### The exchange of messages -/

namespace Traced

variable {α β : Type} {broken : Pid → Prop} {x : Traced α} {f : α → Traced β} {P : α → Prop} {Q : β → Prop}

/-- The value of the computation, if it has one, is as `post` tells, and it finds no stack overflown but a broken one.
-/
def Safely (broken : Pid → Prop) (x : Traced α) (post : α → Prop) : Prop := Rendezvous.Safely broken x.outcome post

theorem Safely.bind (hx : x.Safely broken P) (hf : ∀ a, P a → (f a).Safely broken Q) : (x >>= f).Safely broken Q := by
  rw [Safely, outcome_bind]
  exact Rendezvous.Safely.bind hx hf

theorem safely_pure {a : α} (h : P a) : (pure a : Traced α).Safely broken P := h

theorem safely_lift {r : Except Stop α} (h : Rendezvous.Safely broken r P) : (lift r).Safely broken P := h

theorem safely_emit {e : Event} {f : Unit → Traced β} (hf : (f ()).Safely broken Q) : (emit e >>= f).Safely broken Q :=
  Safely.bind (P := fun _ => True) trivial fun _ _ => hf

theorem safely_halt {k : Kernel} {e : Fault} (he : ∀ p, e = .stackOverflow p → broken p) :
    (k.halt e : Traced α).Safely broken P :=
  fun p hp => he p (Stop.fault.inj hp)

theorem safely_settle {σ : Type} {k : Kernel} {a : Attempt σ α} {P : α × σ → Prop}
    (h : Rendezvous.Safely broken a.outcome fun v => P (v, a.state)) : (k.settle a).Safely broken P := by
  unfold Kernel.settle
  split
  · rename_i v hv
    exact h.of_ok hv
  · rename_i e he
    exact safely_halt fun p hp => h.of_overflow (he.trans (by rw [hp]))
  · rename_i s hs _
    exact .error fun p hp => hs _ hp

theorem safely_orHalt {k : Kernel} {r : Except Fault α} (hok : ∀ a, r = .ok a → P a)
    (herror : ∀ e, r = .error e → ∀ p, e ≠ .stackOverflow p) : (k.orHalt r).Safely broken P := by
  unfold Kernel.orHalt
  split
  · exact hok _ rfl
  · exact safely_halt fun p hp => absurd hp (herror _ rfl p)

end Traced

namespace Kernel

open Traced Table

variable {m : Memory} {k k' : Kernel} {broken : Pid → Prop} {p : Pid}

/-- The process `p` is built from what is free: with a stack of its own, and nothing written elsewhere. -/
structure Founds (k : Kernel) (name : String) (words : Nat) (frame : List Word) (p : Pid) (k' : Kernel) : Prop where
  size : k.table.size < Limits.processes
  room : k.table.frontier + words ≤ Limits.arenaWords
  pid : p = .ofIndex k.table.size
  memory : (k.table.build name words frame).memory.In k'.table

section
variable (broken)

theorem fetch_safely (k : Kernel) (p : Pid) : (k.fetch p).Safely broken fun d => k.process? p = some d :=
  k.table.fetch_safely broken p

theorem amend_safely (h : m.In k.table) (p : Pid) {f : Descriptor → Descriptor} (hf : ∀ d, (f d).stack = d.stack) :
    (k.amend p f).Safely broken fun k' => m.In k'.table :=
  (update_safely broken h p hf).map fun _ h' => h'

theorem saveContext_safely (h : m.In k.table) (psp : Word) :
    (k.saveContext psp).Safely broken fun k' => m.In k'.table ∧ k'.current = k.current := by
  refine safely_lift (.map (update_safely broken h k.current fun _ => rfl) fun t h' => ⟨h', ?_⟩)
  rfl

theorem resume_safely (k : Kernel) : k.resume.Safely broken fun _ => True :=
  (k.fetch_safely broken k.current).bind fun _ _ => trivial

theorem makeReady_safely (h : m.In k.table) (p : Pid) : (k.makeReady p).Safely broken fun k' => m.In k'.table := by
  unfold makeReady
  refine .bind (P := fun r => m.In r.2.2) (safely_settle (Table.makeReady_safely broken k.scheduler h p)) ?_
  rintro ⟨_, s, t⟩ ht
  exact safely_pure ht

theorem reschedule_safely (h : m.In k.table) : k.reschedule.Safely broken fun k' => m.In k'.table := by
  unfold reschedule Scheduler.chooseNext
  refine .bind (P := fun r => m.In r.2.2) (.bind (safely_lift (pick_safely broken k.scheduler h k.uptime)) ?_) ?_
  · rintro ⟨next, s, t⟩ ht
    exact (safely_lift (t.fetch_safely broken next)).bind fun d _ => safely_emit (safely_pure ht)
  · rintro ⟨next, s, t⟩ ht
    exact safely_pure ht

theorem cancelTimeout_safely (h : m.In k.table) (p : Pid) :
    (k.cancelTimeout p).Safely broken fun k' => m.In k'.table := by
  unfold cancelTimeout
  refine (k.fetch_safely broken p).bind fun d _ => ?_
  split
  · refine .bind (P := fun r => m.In r.2.2) (safely_settle (cancelDeadline_safely broken k.timeouts h p)) ?_
    rintro ⟨_, r, t⟩ ht
    exact safely_pure ht
  · exact safely_pure h

theorem setTimeout_safely (h : m.In k.table) (p : Pid) (timeout : Option UInt32) :
    (k.setTimeout p timeout).Safely broken fun k' => m.In k'.table := by
  cases timeout with
  | none => exact safely_pure h
  | some ms =>
    refine .bind (P := fun r => m.In r.2.2) (safely_settle (setDeadline_safely broken k.timeouts h p ms)) ?_
    rintro ⟨_, r, t⟩ ht
    exact safely_pure ht

theorem findDest_safely (k : Kernel) (dest : Int32) : (k.findDest dest).Safely broken fun _ => True :=
  safely_orHalt (fun _ _ => trivial) fun _ => lookup_ne_overflow k.table dest

theorem handOver_safely (h : m.In k.table) (dest src : Pid) :
    (k.handOver dest src).Safely broken fun k' => m.In k'.table := by
  unfold handOver
  refine (k.fetch_safely broken src).bind fun sender _ => ?_
  split
  · exact safely_halt (by simp)
  · refine .bind (amend_safely broken h src fun _ => rfl) fun k₁ h₁ => ?_
    refine .bind (cancelTimeout_safely broken h₁ dest) fun k₂ h₂ => ?_
    exact .bind (amend_safely broken h₂ dest fun _ => rfl) fun k₃ h₃ => safely_emit (safely_pure h₃)

theorem deliver_safely (h : m.In k.table) (dest src : Pid) :
    (k.deliver dest src).Safely broken fun k' => m.In k'.table :=
  .bind (handOver_safely broken h dest src) fun _ h₁ => makeReady_safely broken h₁ dest

theorem notify_safely (h : m.In k.table) (dest : Pid) (ty : MessageType) :
    (k.notify dest ty).Safely broken fun k' => m.In k'.table := by
  unfold notify
  exact .bind (amend_safely broken h dest fun _ => rfl) fun k₁ h₁ => safely_emit (safely_pure h₁)

theorem queueSender_safely (h : m.In k.table) (dest : Pid) :
    (k.queueSender dest).Safely broken fun k' => m.In k'.table := by
  unfold queueSender
  refine (k.fetch_safely broken k.current).bind fun d _ => ?_
  split
  · exact safely_halt (by simp)
  · exact .bind (safely_lift (addWaiting_safely broken h dest k.current)) fun t ht => safely_emit (safely_pure ht)

theorem findSender_safely (h : m.In k.table) (dest : Pid) (filter : MessageType) :
    (k.findSender dest filter).Safely broken fun r => m.In r.2.table := by
  unfold findSender
  refine .bind (safely_lift (takeWaiting_safely broken h dest filter)) ?_
  rintro ⟨src, t⟩ ht
  exact safely_pure ht

theorem awaitReply_safely (h : m.In k.table) (p : Pid) : (k.awaitReply p).Safely broken fun k' => m.In k'.table := by
  unfold awaitReply
  refine .bind (findSender_safely broken h p .reply) ?_
  rintro ⟨replier, k₁⟩ h₁
  cases replier with
  | none => exact amend_safely broken h₁ p fun _ => rfl
  | some src => exact .bind (deliver_safely broken h₁ p src) fun k₂ h₂ => makeReady_safely broken h₂ src

/-- What ends in a choice of the process that runs next. -/
theorem rescheduled_safely {x : Traced Kernel} (h : x.Safely broken fun k' => m.In k'.table) :
    (x >>= reschedule).Safely broken fun k' => m.In k'.table :=
  h.bind fun _ h₁ => reschedule_safely broken h₁

/-- What is left to do at a stage leaves the memory as it is by then. -/
theorem finish_safely {s : Stage Kernel} (h : m.In s.kernel.table) :
    (s.finish pure).Safely broken fun k' => m.In k'.table := by
  cases s with
  | done k => exact safely_pure h
  | taken k asker taker =>
    refine .bind (awaitReply_safely broken h asker) fun k₁ h₁ => ?_
    exact .bind (reschedule_safely broken h₁) fun k₂ h₂ => safely_pure h₂

/-- A process is blocked in the waiting list of another one, and then the rest. -/
theorem blocked_safely {α : Type} (h : m.In k.table) (me dest : Pid) (s : State) {f : Kernel → Traced α} {P : α → Prop}
    (hf : ∀ k', m.In k'.table → (f k').Safely broken P) :
    (k.amend me (fun p => { p with state := s }) >>= fun k => k.queueSender dest >>= f).Safely broken P :=
  .bind (amend_safely broken h me fun _ => rfl) fun _ h₁ => .bind (queueSender_safely broken h₁ dest) hf

theorem send_safely (h : m.In k.table) (dest : Int32) (msg : Message) :
    (k.send dest msg).Safely broken fun k' => m.In k'.table := by
  unfold send
  refine (k.findDest_safely broken dest).bind fun dest _ => ?_
  refine .bind (amend_safely broken h k.current fun _ => rfl) fun k₁ h₁ => ?_
  refine (k₁.fetch_safely broken dest).bind fun d _ => ?_
  split
  · refine .bind (deliver_safely broken h₁ dest k.current) fun k₂ h₂ => ?_
    exact rescheduled_safely broken (makeReady_safely broken h₂ k.current)
  · exact blocked_safely broken h₁ k.current dest .sending fun k₂ h₂ => reschedule_safely broken h₂

theorem sendRec_safely (h : m.In k.table) (dest : Int32) (msg : Message) :
    (k.sendRec dest msg).Safely broken fun k' => m.In k'.table := by
  have hbegin : (k.beginSendRec dest msg).Safely broken fun s => m.In s.kernel.table := by
    unfold beginSendRec
    refine (k.findDest_safely broken dest).bind fun dest _ => ?_
    split
    · exact safely_halt (by simp)
    refine .bind (amend_safely broken h k.current fun _ => rfl) fun k₁ h₁ => ?_
    refine (k₁.fetch_safely broken dest).bind fun d _ => ?_
    split
    · exact .bind (deliver_safely broken h₁ dest k.current) fun k₂ h₂ => safely_pure h₂
    · refine blocked_safely broken h₁ k.current dest .sendRec fun k₂ h₂ => ?_
      exact .bind (reschedule_safely broken h₂) fun k₃ h₃ => safely_pure h₃
  exact hbegin.bind fun _ hs => finish_safely broken hs

theorem nextSender_safely (h : m.In k.table) (filter : MessageType) :
    (k.nextSender filter).Safely broken fun r => m.In r.2.table := by
  unfold nextSender
  split
  · exact safely_pure h
  · exact findSender_safely broken h k.current filter

theorem beginAccept_safely (h : m.In k.table) (src : Pid) :
    (k.beginAccept src).Safely broken fun s => m.In s.kernel.table := by
  unfold beginAccept
  refine .bind (deliver_safely broken h k.current src) fun k₁ h₁ => (k₁.fetch_safely broken src).bind fun d _ => ?_
  dsimp only
  split
  · refine .bind (makeReady_safely broken h₁ src) fun k₂ h₂ => ?_
    exact .bind (reschedule_safely broken h₂) fun k₃ h₃ => safely_pure h₃
  · exact safely_pure h₁
  · exact safely_halt (by simp)

theorem block_safely (h : m.In k.table) (filter : MessageType) (timeout : Option UInt32) :
    (k.block filter timeout).Safely broken fun k' => m.In k'.table := by
  unfold block
  refine .bind (amend_safely broken h k.current fun _ => rfl) fun k₁ h₁ => ?_
  exact .bind (setTimeout_safely broken h₁ k.current timeout) fun k₂ h₂ => safely_emit (safely_pure h₂)

theorem receive_safely (h : m.In k.table) (filter : MessageType) (timeout : Option UInt32) :
    (k.receive filter timeout).Safely broken fun k' => m.In k'.table := by
  have hbegin : (k.beginReceive filter timeout).Safely broken fun s => m.In s.kernel.table := by
    unfold beginReceive
    refine .bind (amend_safely broken h k.current fun _ => rfl) fun k₁ h₁ => ?_
    refine (k₁.fetch_safely broken k.current).bind fun d _ => ?_
    split
    · refine .bind (amend_safely broken h₁ k.current fun _ => rfl) fun k₂ h₂ => ?_
      exact .bind (notify_safely broken h₂ _ _) fun k₃ h₃ => safely_pure h₃
    refine .bind (nextSender_safely broken h₁ filter) ?_
    rintro ⟨src, k₂⟩ h₂
    cases src with
    | some src => exact beginAccept_safely broken h₂ src
    | none =>
      dsimp only
      split
      · exact .bind (notify_safely broken h₂ k.current .timeout) fun k₃ h₃ => safely_pure h₃
      · refine .bind (block_safely broken h₂ filter timeout) fun k₃ h₃ => ?_
        exact .bind (reschedule_safely broken h₃) fun k₄ h₄ => safely_pure h₄
  exact hbegin.bind fun _ hs => finish_safely broken hs

/-! ### Calls -/

theorem expire_safely (h : m.In k.table) (p : Pid) : (k.expire p).Safely broken fun k' => m.In k'.table := by
  unfold expire
  exact safely_emit (.bind (notify_safely broken h p .timeout) fun k₁ h₁ => makeReady_safely broken h₁ p)

theorem expireAll_safely (h : m.In k.table) (l : List Pid) :
    (l.foldlM expire k).Safely broken fun k' => m.In k'.table := by
  induction l generalizing k with
  | nil => exact safely_pure h
  | cons p l ih =>
    rw [List.foldlM_cons]
    exact .bind (expire_safely broken h p) fun k₁ h₁ => ih h₁

theorem tick_safely (h : m.In k.table) (ms : UInt32) : (k.tick ms).Safely broken fun k' => m.In k'.table := by
  unfold tick
  refine .bind (safely_lift (charge_safely broken k.scheduler h _)) ?_
  rintro ⟨s, t⟩ ht
  refine .bind (safely_lift (Table.tick_safely broken k.timeouts ht ms)) ?_
  rintro ⟨expired, r, t'⟩ ht'
  exact expireAll_safely broken ht' expired

theorem exit_safely (h : m.In k.table) : k.exit.Safely broken fun k' => m.In k'.table := by
  unfold exit
  dsimp only
  split
  · exact (k.fetch_safely broken k.current).bind fun d _ => safely_halt (by simp)
  · refine .bind (amend_safely broken h k.current fun _ => rfl) fun k₁ h₁ => ?_
    exact safely_emit (reschedule_safely broken h₁)

theorem dumpToLog_safely (k : Kernel) : k.dumpToLog.Safely broken fun _ => True := by
  have hlines : ∀ l : List Descriptor,
      (l.forM fun d => Traced.emit (.dumped (k.dumpLine d)) : Traced PUnit).Safely broken fun _ => True := by
    intro l
    induction l with
    | nil => exact safely_pure trivial
    | cons d l ih => exact safely_emit ih
  exact safely_emit (.bind (hlines k.table.processes) fun _ _ => trivial)

theorem perform_safely (h : m.In k.table) (r : Request) : (k.perform r).Safely broken fun k' => m.In k'.table := by
  cases r with
  | yield => exact rescheduled_safely broken (makeReady_safely broken h k.current)
  | send dest msg => exact send_safely broken h dest msg
  | receive filter timeout => exact receive_safely broken h filter timeout
  | sendRec dest msg => exact sendRec_safely broken h dest msg
  | exit => exact exit_safely broken h
  | dump => exact (k.dumpToLog_safely broken).bind fun _ _ => safely_pure h
  | tick ms => exact tick_safely broken h ms

theorem note_safely (h : m.In k.table) (r : Request) : (k.note r).Safely broken fun k' => m.In k'.table :=
  safely_emit (safely_pure h)

theorem serve_safely (h : m.In k.table) (r : Request) : (k.serve r).Safely broken fun a => m.In a.2.table := by
  unfold serve
  refine .bind (note_safely broken h r) fun k₁ h₁ => ?_
  refine .bind (perform_safely broken h₁ r) fun k₂ h₂ => ?_
  exact (k₂.resume_safely broken).bind fun _ _ => safely_pure h₂

theorem preempt_safely (h : m.In k.table) (psp : Word) : (k.preempt psp).Safely broken fun a => m.In a.2.table := by
  unfold preempt
  refine .bind (saveContext_safely broken h psp) fun k₁ h₁ => ?_
  refine .bind (makeReady_safely broken h₁.1 k₁.current) fun k₂ h₂ => ?_
  refine .bind (reschedule_safely broken h₂) fun k₃ h₃ => ?_
  exact (k₃.resume_safely broken).bind fun _ _ => safely_pure h₃

theorem interrupt_safely (h : m.In k.table) (dest : Pid) :
    (k.interrupt dest).Safely broken fun a => m.In a.2.table := by
  unfold interrupt alert
  have hraised : m.In k.raised.table := h
  refine (k.findDest_safely broken _).bind fun dest _ => (Kernel.fetch_safely broken _ dest).bind fun d _ => ?_
  split
  · refine .bind (cancelTimeout_safely broken hraised dest) fun k₁ h₁ => ?_
    refine .bind (notify_safely broken h₁ dest .interrupt) fun k₂ h₂ => ?_
    refine .bind (makeReady_safely broken h₂ dest) fun k₃ h₃ => ?_
    exact (k₃.fetch_safely broken k₃.current).bind fun _ _ => safely_pure h₃
  · split
    · exact safely_emit (safely_pure h)
    · exact .bind (amend_safely broken hraised dest fun _ => rfl) fun k₁ h₁ => safely_pure h₁

theorem interruptRequest_safely (h : m.In k.table) (irq : Int32) :
    (k.interruptRequest irq).Safely broken fun a => m.In a.2.table := by
  unfold interruptRequest
  refine .bind (P := fun _ => True) (safely_orHalt (fun _ _ => trivial) fun e he p => ?_) fun p _ =>
    interrupt_safely broken h p
  unfold InterruptLines.handler at he
  split at he
  · cases he
    simp
  · cases he

theorem connect_safely (h : m.In k.table) (irq : Int32) : (k.connect irq).Safely broken fun k' => m.In k'.table := by
  unfold connect InterruptLines.connect
  split
  · refine .bind (P := fun _ => True) (safely_settle ?_) ?_
    · split
      · exact .error (by simp)
      · exact .ok trivial
    · rintro ⟨_, lines⟩ -
      have hlines : m.In ({ k with lines := lines } : Kernel).table := h
      refine .bind (amend_safely broken hlines k.current fun _ => rfl) fun k₁ h₁ => ?_
      exact safely_emit (safely_pure h₁)
  · exact safely_halt (by simp)

theorem setPriority_safely (h : m.In k.table) (level : Priority) :
    (k.setPriority level).Safely broken fun k' => m.In k'.table := by
  unfold setPriority
  split
  · split
    · exact amend_safely broken h k.current fun _ => rfl
    · exact safely_halt (by simp)
  · exact safely_halt (by simp)

theorem launch_safely (h : m.In k.table) : k.launch.Safely broken fun a => m.In a.2.table := by
  unfold launch
  have hrunning : m.In ({ k with running := true, current := .idle } : Kernel).table := h
  refine safely_emit (.bind (reschedule_safely broken hrunning) fun k₁ h₁ => ?_)
  exact (k₁.resume_safely broken).bind fun _ _ => safely_pure h₁

theorem takeMessage_safely (h : m.In k.table) (p : Pid) : (k.takeMessage p).Safely broken fun a => m.In a.2.table := by
  unfold takeMessage
  split
  · exact safely_pure h
  · exact .bind (amend_safely broken h p fun _ => rfl) fun k₁ h₁ => safely_pure h₁

theorem start_safely (k : Kernel) (name : String) (size : Nat) (entry arg : Word) :
    (k.start name size entry arg).Safely broken fun a => k.Founds name (stackWords (stackSize size))
      (Frame.initial entry arg k.config.exitVector) a.1 a.2 := by
  obtain ⟨words, hw⟩ : ∃ words, words = stackWords (stackSize size) := ⟨_, rfl⟩
  obtain ⟨frame, hf⟩ : ∃ frame, frame = Frame.initial entry arg k.config.exitVector := ⟨_, rfl⟩
  have hbig : frame.length + 1 ≤ words := hf ▸ hw ▸ frame_fits size
  unfold start
  split
  · exact safely_halt (by simp)
  · rcases Nat.lt_or_ge k.table.size Limits.processes with hsize | hfull
    · rcases Nat.lt_or_ge k.table.freeBytes (stackWords (stackSize size) * wordBytes) with hfree | hroom
      · rw [Table.create_exhausted hsize hfree]
        exact .bind (P := fun _ => False) (safely_settle (.error (by simp))) fun _ hno => hno.elim
      · rw [Table.create_done hsize hroom, ← hw, ← hf]
        -- The arena is not exhausted, so the new stack ends within it.
        have hwithin : k.table.frontier + words ≤ Limits.arenaWords := by
          have hle := Nat.le_of_mul_le_mul_right hroom (by decide)
          omega
        refine .bind (P := fun r => r = (.ofIndex k.table.size, k.table.extend name words)) (safely_settle (.ok rfl)) ?_
        rintro _ rfl
        refine (safely_lift (Table.fetch_safely broken _ _)).bind fun d hd => ?_
        rw [Table.get?_extend hsize, Function.update_self] at hd
        obtain rfl := Option.some_inj.mp hd
        have hinstall : Frame.install? frame ((k.table.extend name words).arena.slice ⟨k.table.frontier, words⟩) =
            some (words - frame.length, Frame.stack words frame) := by
          rw [← Frame.install?_blank (Nat.le_of_succ_le hbig)]
          exact congrArg _ (k.table.arena.slice_clear (r := ⟨k.table.frontier, words⟩) hwithin)
        simp only [Descriptor.fresh, hinstall]
        have hbuilt : (k.table.build name words frame).memory.In
            ({ k with table := k.table.build name words frame } : Kernel).table := rfl
        refine .bind (amend_safely broken hbuilt _ fun _ => rfl) fun k₁ h₁ => ?_
        refine .bind (makeReady_safely broken h₁ _) fun k₂ h₂ => safely_emit (safely_pure ?_)
        exact ⟨hsize, hwithin, rfl, h₂⟩
    · rw [Table.create_full hfull]
      exact .bind (P := fun _ => False) (safely_settle (.error (by simp))) fun _ hno => hno.elim

end

/-- The call is a trap of a process whose stack has overflown. -/
def Overflows (k : Kernel) (c : Call) (p : Pid) : Prop :=
  (∃ psp frame, c = .trap psp frame) ∧ p = k.current ∧ k.table.stackIntact p = .ok false

theorem openTrap_safely (k : Kernel) (psp : Word) (frame : TrapFrame) :
    (k.openTrap psp frame).Safely (k.Overflows (.trap psp frame)) fun a => k.table.memory.In a.1.table := by
  unfold openTrap
  refine .bind (saveContext_safely _ rfl psp) ?_
  rintro k₁ ⟨h₁, hcurrent⟩
  have hstack : k₁.table.stackIntact k₁.current = k.table.stackIntact k.current := by
    rw [Table.stackIntact, Table.stackIntact, Table.stack_of_memory h₁, hcurrent]
  refine .bind (safely_lift (stackIntact_safely _ k₁.table k₁.current)) fun intact hintact => ?_
  split
  · refine .bind (P := fun _ => True) (safely_orHalt (fun _ _ => trivial) fun e he p => ?_) fun r _ => safely_pure h₁
    cases TrapFrame.decode_eq_error.mp he <;> simp
  · rename_i hbroken
    refine safely_halt fun p hp => ?_
    obtain rfl : k₁.current = p := Fault.stackOverflow.inj hp
    rw [hstack, Bool.eq_false_of_not_eq_true hbroken] at hintact
    exact ⟨⟨psp, frame, rfl⟩, hcurrent, hcurrent.symm ▸ hintact⟩

theorem trap_safely (k : Kernel) (psp : Word) (frame : TrapFrame) :
    (k.trap psp frame).Safely (k.Overflows (.trap psp frame)) fun a => k.table.memory.In a.2.table :=
  .bind (openTrap_safely k psp frame) fun a h => serve_safely _ h a.2

/-- All that a call can make of the memory. -/
inductive Writes (k : Kernel) (c : Call) (k' : Kernel) : Prop
  | nothing (keeps : k.table.memory.In k'.table)
  | stack (name : String) (size : Nat) (entry arg : Word) (p : Pid) (call : c = .start name size entry arg)
    (founds : k.Founds name (stackWords (stackSize size)) (Frame.initial entry arg k.config.exitVector) p k')
  | word (p : Pid) (i : Nat) (value : Word) (call : c = .pokeStack p i value)
    (pokes : k.table.pokeStack p i value = .ok k'.table)

/-- Whatever state the kernel is in, a call that does not start a process and is no write of the port leaves the memory
as it is, and only a trap finds a stack that has overflown. -/
theorem call_safely (k : Kernel) (c : Call) : (k.call c).Safely (k.Overflows c) fun a => k.Writes c a.2 := by
  have hrest : k.table.memory.In k.table := rfl
  cases c with
  | start name size entry arg =>
    exact (start_safely _ k name size entry arg).bind fun a h => safely_pure (.stack name size entry arg a.1 rfl h)
  | pokeStack p i value =>
    refine Traced.Safely.bind (P := fun k' => (k.pokeStack p i value).outcome = .ok k') ?_ fun k' hk' => ?_
    · exact ((Table.pokeStack_safely _ k.table p i value).map (Q := fun _ => True) fun _ _ => trivial).told
    · obtain ⟨t, ht, rfl⟩ := pokeStack_eq_ok.mp hk'
      exact safely_pure (.word p i value rfl ht)
  | launch => exact (launch_safely _ hrest).bind fun _ h => safely_pure (.nothing h)
  | connect irq => exact (connect_safely _ hrest irq).bind fun _ h => safely_pure (.nothing h)
  | setPriority level => exact (setPriority_safely _ hrest level).bind fun _ h => safely_pure (.nothing h)
  | serve r => exact (serve_safely _ hrest r).bind fun _ h => safely_pure (.nothing h)
  | trap psp frame => exact (trap_safely k psp frame).bind fun _ h => safely_pure (.nothing h)
  | preempt psp => exact (preempt_safely _ hrest psp).bind fun _ h => safely_pure (.nothing h)
  | interrupt p => exact (interrupt_safely _ hrest p).bind fun _ h => safely_pure (.nothing h)
  | interruptRequest irq => exact (interruptRequest_safely _ hrest irq).bind fun _ h => safely_pure (.nothing h)
  | takeMessage p => exact (takeMessage_safely _ hrest p).bind fun _ h => safely_pure (.nothing h)

/-- No call but the start of a process and a write of the port writes to a stack, or moves one. -/
theorem memory_eq_of_call {a : Answer} {c : Call} (hok : (k.call c).outcome = .ok (a, k'))
    (hstart : ∀ name size entry arg, c ≠ .start name size entry arg) (hport : ∀ p i value, c ≠ .pokeStack p i value) :
    k'.table.memory = k.table.memory := by
  cases (k.call_safely c).of_ok hok with
  | nothing keeps => exact keeps
  | stack name size entry arg p call founds => exact absurd call (hstart name size entry arg)
  | word p i value call pokes => exact absurd call (hport p i value)

end Kernel

end Rendezvous
