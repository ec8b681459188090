import Mathlib.Algebra.Order.BigOperators.Group.List
import Mathlib.Tactic.IntervalCases
import Rendezvous.Proofs.Finality
import Rendezvous.Proofs.Memory
import Rendezvous.Proofs.RunTime

/-! # Isolated stacks

A process that is started has a stack of its own, blank but for the frame at its top from which it resumes first. No
call writes to a stack after that, and a port writes to the stack that it names; so a stack overflows only if its port
has written to its lowest word. -/

namespace Rendezvous

namespace Table

variable {t t' : Table} {name : String} {words : Nat} {frame content : List Word} {p q : Pid} {value : Word}

/-- The stacks lie as they are told to. -/
theorem Separate.of_memory (h : t.Separate) (hm : t.memory.In t') : t'.Separate := by
  have hregions : t'.processes.map (·.stack) = t.processes.map (·.stack) := congrArg Memory.regions hm
  have hfrontier : t'.frontier = t.frontier := congrArg Memory.frontier hm
  constructor
  · have hpairs := List.pairwise_map (R := fun r s : StackRegion => r.stop ≤ s.base).mpr h.disjoint
    rw [← hregions] at hpairs
    exact List.pairwise_map.mp hpairs
  · have hbelow := List.forall_mem_map (P := fun r : StackRegion => r.stop ≤ t.frontier).mpr h.below
    rw [← hregions, ← hfrontier] at hbelow
    exact List.forall_mem_map.mp hbelow

theorem Separate.build (h : t.Separate) (name : String) (words : Nat) (frame : List Word) :
    (t.build name words frame).Separate := by
  constructor
  · refine List.pairwise_append.mpr ⟨h.disjoint, List.pairwise_singleton .., fun x hx y hy => ?_⟩
    rw [List.mem_singleton.mp hy]
    exact h.below x hx
  · intro x hx
    rcases List.mem_append.mp hx with hx | hx
    · exact Nat.le_trans (h.below x hx) (Nat.le_add_right ..)
    · rw [List.mem_singleton.mp hx]
      exact Nat.le_refl _

/-- The new stack is as it is built, and no other stack is touched. -/
theorem Separate.build_stack (h : t.Separate) (hsize : t.size < Limits.processes)
    (hroom : t.frontier + words ≤ Limits.arenaWords) (hframe : frame.length ≤ words) (q : Pid) :
    (t.build name words frame).stack q =
      if q = .ofIndex t.size then .ok (Frame.stack words frame) else t.stack q := by
  have hget : (t.build name words frame).get? = Function.update t.get? (.ofIndex t.size) _ :=
    get?_extend hsize name words
  have hlength := Frame.length_stack hframe
  have hwords : t.frontier + (Frame.stack words frame).length ≤ Limits.arenaWords := hlength.symm ▸ hroom
  split
  · rename_i hq
    refine stack_eq_ok.mpr ⟨_, by rw [hq, hget, Function.update_self], ?_⟩
    have hslice := (t.extend name words).arena.slice_overwrite hwords
    rwa [hlength] at hslice
  · rename_i hq
    refine h.stack_others (by rw [hget, Function.update_of_ne hq]) fun i hi => ?_
    have hout : ∀ n, ¬(StackRegion.mk t.frontier n).Contains i := fun n hin => absurd hi (Nat.not_lt.mpr hin.1)
    rw [Table.build, Arena.getElem?_overwrite _ hwords, if_neg (hout _)]
    exact (t.arena.getElem?_clear (r := ⟨t.frontier, words⟩) hroom i).trans (if_neg (hout _))

end Table

/-! ### Guard words -/

/-- The port overwrites the lowest word of the stack of `p`. -/
def Step.Overwrites (s : Step) (p : Pid) : Prop := ∃ value, value ≠ blank ∧ s.call = .pokeStack p 0 value

/-- The stacks lie apart, and the lowest word of each is blank unless the port has overwritten it in one of the
steps. -/
structure Guarded (steps : List Step) (t : Table) : Prop where
  separate : t.Separate
  guard : ∀ p words, t.stack p = .ok words → words.head? = some blank ∨ ∃ s ∈ steps, s.Overwrites p

namespace Guarded

variable {steps : List Step} {t t' : Table} {p : Pid} {words : List Word} {s : Step}

theorem earlier (h : Guarded steps t) (hp : t.stack p = .ok words) (s : Step) :
    words.head? = some blank ∨ ∃ u ∈ steps ++ [s], u.Overwrites p := by
  rcases h.guard p words hp with hblank | ⟨u, hu, hover⟩
  · exact .inl hblank
  · exact .inr ⟨u, List.mem_append_left _ hu, hover⟩

theorem of_memory (h : Guarded steps t) (hm : t.memory.In t') (s : Step) : Guarded (steps ++ [s]) t' := by
  refine ⟨h.separate.of_memory hm, fun p words hp => ?_⟩
  rw [Table.stack_of_memory hm] at hp
  exact h.earlier hp s

theorem boot (config : Config) : Guarded [] (Kernel.boot config).table := by
  have hmemory : (Table.empty.extend "IDLE" (stackWords Limits.idleStack)).memory.In (Kernel.boot config).table := rfl
  have hfree : stackWords Limits.idleStack * wordBytes ≤ Table.empty.freeBytes := by decide
  have hpacked := Table.empty_packed.extend (by decide) hfree "IDLE"
  refine ⟨hpacked.separate.of_memory hmemory, fun p words hp => .inl ?_⟩
  rw [Table.stack_of_memory hmemory] at hp
  obtain ⟨d, hd, hslice⟩ := Table.stack_eq_ok.mp hp
  rw [Table.get?_extend (by decide), Function.update_apply] at hd
  split at hd
  · obtain rfl := Option.some_inj.mp hd
    have hclear := Arena.zero.slice_clear (r := ⟨0, stackWords Limits.idleStack⟩) (by decide)
    rw [← hslice]
    exact congrArg List.head? hclear
  · cases hd

/-- The stack that a start builds has a blank word below the frame. -/
theorem founds {k k' : Kernel} {name : String} {size : Nat} {frame : List Word} (h : Guarded steps k.table)
    (hfounds : k.Founds name size frame p k') (hframe : frame.length < size) (s : Step) :
    Guarded (steps ++ [s]) k'.table := by
  refine ⟨(h.separate.build name size frame).of_memory hfounds.memory, fun q words hq => ?_⟩
  rw [Table.stack_of_memory hfounds.memory,
      h.separate.build_stack hfounds.size hfounds.room (Nat.le_of_lt hframe)] at hq
  split at hq
  · obtain rfl := Except.ok.inj hq
    obtain ⟨n, hn⟩ : ∃ n, size - frame.length = n + 1 := ⟨size - frame.length - 1, by omega⟩
    rw [Frame.stack, hn, List.replicate_succ]
    exact .inl rfl
  · exact h.earlier hq s

theorem poked {i : Nat} {value : Word} (h : Guarded steps t) (hpoke : t.pokeStack p i value = .ok t')
    (hs : s.call = .pokeStack p i value) : Guarded (steps ++ [s]) t' := by
  have hpokes := h.separate.pokes p i value
  obtain ⟨hprocesses, hfrontier⟩ := hpokes.processes t' hpoke
  have hget : t'.get? = t.get? := by
    funext q
    rw [Table.get?, hprocesses, Table.get?]
  refine ⟨⟨hprocesses ▸ h.separate.disjoint, ?_⟩, fun q words hq => ?_⟩
  · rw [hprocesses, hfrontier]
    exact h.separate.below
  · by_cases hqp : q = p
    · subst hqp
      obtain ⟨d, hd, -⟩ := Table.stack_eq_ok.mp hq
      obtain ⟨old, hold⟩ : ∃ old, t.stack q = .ok old := ⟨_, Table.stack_eq_ok.mpr ⟨d, hget ▸ hd, rfl⟩⟩
      obtain rfl := Except.ok.inj (hq.symm.trans (hpokes.written t' hpoke old hold))
      have hearlier := h.earlier hold s
      -- Only the lowest word of a stack is its guard.
      cases old with
      | nil => exact hearlier
      | cons first rest =>
        cases i with
        | succ i => exact hearlier
        | zero =>
          by_cases hvalue : value = blank
          · rw [hvalue]
            exact .inl rfl
          · exact .inr ⟨s, List.mem_append_right _ (List.mem_singleton_self s), value, hvalue, hs⟩
    · rw [hpokes.others t' hpoke q hqp] at hq
      exact h.earlier hq s

/-- Every call that returns keeps the guard words, or it is the port that overwrites one. -/
theorem call {k k' : Kernel} {c : Call} {a : Answer} (h : Guarded steps k.table)
    (hok : (k.call c).outcome = .ok (a, k')) : Guarded (steps ++ [⟨k, c, a, k'⟩]) k'.table := by
  cases (k.call_safely c).of_ok hok with
  | nothing keeps => exact h.of_memory keeps _
  | stack name size entry arg p call founds => exact h.founds founds (frame_fits size) _
  | word p i value call pokes => exact h.poked pokes call

/-- A call that finds a stack overflown is a trap of the process that runs, whose lowest word was overwritten. -/
theorem of_overflow {k : Kernel} {c : Call} (h : Guarded steps k.table)
    (hover : (k.call c).outcome = .error (.fault (.stackOverflow p))) :
    (∃ psp frame, c = .trap psp frame) ∧ p = k.current ∧ ∃ s ∈ steps, s.Overwrites p := by
  obtain ⟨htrap, hcurrent, hbroken⟩ := (k.call_safely c).of_overflow hover
  refine ⟨htrap, hcurrent, ?_⟩
  rw [Table.stackIntact] at hbroken
  cases hwords : k.table.stack p with
  | error s =>
    rw [hwords] at hbroken
    cases hbroken
  | ok words =>
    rw [hwords] at hbroken
    exact (h.guard p words hwords).resolve_left (of_decide_eq_false (Except.ok.inj hbroken))

end Guarded

theorem Run.guarded {rule : Kernel → Call → Prop} {config : Config} {steps : List Step} {k : Kernel}
    (h : Run rule config steps k) : Guarded steps k.table := by
  induction h with
  | boot => exact .boot _
  | call _ _ done ih => exact ih.call done

/-! ### A process behind all others -/

/-- A process goes to the end of a queue where no score is larger than its own. -/
theorem Policy.insert_last (policy : Policy) {before : Pid → Bool} {l : List Pid} (h : ∀ x ∈ l, before x) (p : Pid) :
    policy.insert before l p = l ++ [p] := by
  cases policy with
  | fifo => rfl
  | scored =>
    show l.takeWhile before ++ p :: l.dropWhile before = _
    rw [List.takeWhile_eq_self_iff.mpr h, List.dropWhile_eq_nil_iff.mpr h]

namespace Plain

variable {P Q : Plain} {hand : List Pid} {p : Pid} {d : Descriptor}

/-- The process `p` comes in behind all others of the low level. -/
structure Enlists (P : Plain) (p : Pid) (d : Descriptor) (Q : Plain) : Prop where
  process : Q.process = Function.update P.process p (some d)
  queue : Q.queue = Function.update P.queue (.ready .low) (P.queue (.ready .low) ++ [p])

theorem wake_enlists (hd : P.process p = some d) (hlow : d.priority = .low)
    (hscore : ∀ x ∈ P.queue (.ready .low), (P.process x).any (·.score ≤ d.score)) :
    P.Enlists p { d with state := .active, link := some (.ready .low) } (P.wake p) := by
  rw [wake_of_some hd (l := .low) (by rw [hlow]; rfl), Policy.insert_last _ hscore]
  exact ⟨rfl, rfl⟩

theorem startWith_enlists (h : P.Sound hand) (hscore : ∀ q d, P.process q = some d → d.score = 0) {name : String}
    {words offset : Nat} {entry arg : Word} {content : List Word}
    (hframe : Frame.install? (Frame.initial entry arg P.config.exitVector)
      ((P.create name words).arena.slice ⟨P.frontier, words⟩) = some (offset, content)) :
    P.Enlists (.ofIndex P.size) { Descriptor.fresh (.ofIndex P.size) name ⟨P.frontier, words⟩ with
      context := .arena (P.frontier + offset), link := some (.ready .low) } (P.startWith name words entry arg) := by
  obtain ⟨Q, hQ⟩ : ∃ Q, Q = (P.create name words).install (.ofIndex P.size) P.frontier offset content := ⟨_, rfl⟩
  obtain ⟨d, hd⟩ : ∃ d, d = { Descriptor.fresh (.ofIndex P.size) name ⟨P.frontier, words⟩ with
    context := .arena (P.frontier + offset) } := ⟨_, rfl⟩
  have hprocess : Q.process = Function.update P.process (.ofIndex P.size) (some d) := by
    funext q
    rw [hQ]
    by_cases hq : q = .ofIndex P.size
    · rw [hq, Function.update_self, hd]
      exact modify_self (P.create_self name words) _
    · rw [Function.update_of_ne hq]
      exact (modify_ne hq _).trans (P.create_ne name words hq)
  have hqueue : Q.queue = P.queue := hQ ▸ rfl
  -- All scores are zero yet, so under either policy the process goes behind those that are ready.
  have hbefore : ∀ x ∈ Q.queue (.ready .low), (Q.process x).any (·.score ≤ d.score) := by
    intro x hx
    rw [hqueue] at hx
    obtain ⟨e, he, -⟩ := (h.member _ x).mp hx
    have hnew : x ≠ .ofIndex P.size := by
      rintro rfl
      rw [h.unused.2] at he
      cases he
    rw [hprocess, Function.update_of_ne hnew, he, Option.any_some, hscore x e he]
    exact decide_eq_true (Nat.zero_le _)
  have hself : Q.process (.ofIndex P.size) = some d := by rw [hprocess, Function.update_self]
  have hwake := wake_enlists hself (hd ▸ rfl) hbefore
  rw [startWith_eq hframe, ← hQ]
  constructor
  · refine hwake.process.trans ?_
    rw [hprocess, Function.update_idem, hd]
    rfl
  · refine hwake.queue.trans ?_
    rw [hqueue]

end Plain

namespace Kernel.Shows

variable {k k' : Kernel} {P Q : Plain} {p q : Pid} {d e : Descriptor}

theorem nextOf_of_append (h : k.Shows P) {link : Link} {ahead behind : List Pid}
    (hq : P.queue link = ahead ++ q :: behind) : k.table.nextOf q = behind.head? := by
  have hpath := h.2.threaded.path link
  rw [hq] at hpath
  exact hpath.next_of_append

/-- Only the process that was the last of the low level before has another successor then. -/
theorem nextOf_enlisted (h : k.Shows P) (h' : k'.Shows Q) (hp : P.Enlists p d Q) (hqp : q ≠ p) :
    k'.table.nextOf q =
      if (P.queue (.ready .low)).getLast? = some q then some p else k.table.nextOf q := by
  have hlink : k'.table.linkOf q = k.table.linkOf q := by
    rw [Table.linkOf_eq, Table.linkOf_eq, ← h'.process, ← h.process, hp.process, Function.update_of_ne hqp]
  cases hl : k.table.linkOf q with
  | none =>
    have hlast : (P.queue (.ready .low)).getLast? ≠ some q := fun hlast =>
      h.2.threaded.not_mem hl _ (List.mem_of_getLast? hlast)
    rw [if_neg hlast, h.2.threaded.alone q hl, h'.2.threaded.alone q (hlink.trans hl)]
  | some link =>
    have hmem := (h.2.threaded.member link q).mpr hl
    obtain ⟨ahead, behind, hq⟩ := List.append_of_mem hmem
    by_cases hlow : link = .ready .low
    · subst hlow
      have hq' : Q.queue (.ready .low) = ahead ++ q :: (behind ++ [p]) := by
        rw [hp.queue, Function.update_self, hq, List.append_assoc, List.cons_append]
      rw [h.nextOf_of_append hq, h'.nextOf_of_append hq', hq]
      -- In the low queue, `q` was the last one, or its successor is the one that it had.
      rcases List.eq_nil_or_concat behind with rfl | ⟨init, last, rfl⟩
      · rw [List.getLast?_concat, if_pos rfl]
        rfl
      · have hnodup : (ahead ++ q :: (init ++ [last])).Nodup := by
          rw [← List.concat_eq_append, ← hq]
          exact h.2.threaded.nodup _
        have hne : last ≠ q := by
          rintro rfl
          exact (List.nodup_middle.mp hnodup).notMem (by simp)
        have hsplit : ahead ++ q :: init.concat last = (ahead ++ q :: init) ++ [last] := by simp
        rw [hsplit, List.getLast?_concat, if_neg (by simpa using hne)]
        simp
    · have hq' : Q.queue link = ahead ++ q :: behind := by rw [hp.queue, Function.update_of_ne hlow, hq]
      have hlast : (P.queue (.ready .low)).getLast? ≠ some q := fun hlast =>
        h.2.threaded.not_mem_of_ne hmem hlow (List.mem_of_getLast? hlast)
      rw [if_neg hlast, h.nextOf_of_append hq, h'.nextOf_of_append hq']

/-- No descriptor changes but in the successor of the process that was the last of the low level before. -/
theorem process?_enlisted (h : k.Shows P) (h' : k'.Shows Q) (hp : P.Enlists p d Q) (hqp : q ≠ p) :
    k'.process? q = (k.process? q).map fun d =>
      if (P.queue (.ready .low)).getLast? = some q then { d with next := some p } else d := by
  have hnext := h.nextOf_enlisted h' hp hqp
  have hwaiting : k'.table.waitingOf q = k.table.waitingOf q := by
    rw [h'.waitingOf_eq, h.waitingOf_eq, hp.queue, Function.update_of_ne (by simp)]
  have hplain : k'.table.plain q = k.table.plain q := by
    rw [← h'.process, ← h.process, hp.process, Function.update_of_ne hqp]
  cases hd : k.process? q with
  | none =>
    rw [Table.plain, Table.plain, show k.table.get? q = none from hd, Option.map_none] at hplain
    exact Option.map_eq_none_iff.mp hplain
  | some d =>
    rw [Table.plain_eq_some hd] at hplain
    obtain ⟨e, he, hsame⟩ := Option.map_eq_some_iff.mp hplain
    have hget : k.table.get? q = some d := hd
    simp only [Table.nextOf, Table.waitingOf, he, hget, Option.bind_some] at hnext hwaiting
    refine he.trans (congrArg some ?_)
    split
    · rename_i hlast
      rw [if_pos hlast] at hnext
      exact Descriptor.eq_of_plain hsame hnext hwaiting
    · rename_i hlast
      rw [if_neg hlast] at hnext
      exact Descriptor.eq_of_plain hsame hnext hwaiting

/-- Where all scores are zero, they stay so. -/
theorem score_enlisted (h : k.Shows P) (h' : k'.Shows Q) (hp : P.Enlists p d Q) (hd : d.score = 0)
    (hzero : ∀ q e, k.process? q = some e → e.score = 0) (he : k'.process? q = some e) : e.score = 0 := by
  by_cases hq : q = p
  · subst hq
    obtain ⟨e', he', rfl⟩ := h'.get (p := q) (by rw [hp.process, Function.update_self])
    obtain rfl := Option.some_inj.mp (he.symm.trans he')
    rwa [Descriptor.plain_score] at hd
  · rw [h.process?_enlisted h' hp hq] at he
    obtain ⟨e₀, he₀, rfl⟩ := Option.map_eq_some_iff.mp he
    have hscore := hzero q e₀ he₀
    split
    · exact hscore
    · exact hscore

end Kernel.Shows

/-! ### Starting a process -/

/-- The words of a stack that nothing was written to but the frame from which its process resumes first. -/
structure Frame.Tops (words : List Word) (entry arg exit : Word) : Prop where
  room : Frame.words < words.length
  below : ∀ i, i < words.length - Frame.words → words[i]? = some blank
  top : ∀ i, i < Frame.words → words[words.length - Frame.words + i]? =
    some (if i = 0 then exceptionReturn else if i = 9 then arg else if i = 14 then exit
      else if i = 15 then entry &&& ~~~1 else if i = 16 then initialStatus else 0)

theorem Frame.stack_tops {n : Nat} (h : Frame.words < n) (entry arg exit : Word) :
    Frame.Tops (Frame.stack n (Frame.initial entry arg exit)) entry arg exit := by
  have hlength : (Frame.stack n (Frame.initial entry arg exit)).length = n := Frame.length_stack (Nat.le_of_lt h)
  have hblank : (List.replicate (n - Frame.words) blank).length = n - Frame.words := List.length_replicate
  refine ⟨hlength.symm ▸ h, fun i hi => ?_, fun i hi => ?_⟩
  · rw [hlength] at hi
    exact (List.getElem?_append_left (hblank.symm ▸ hi)).trans (List.getElem?_replicate_of_lt hi)
  · rw [hlength]
    refine (List.getElem?_append_right (hblank.symm ▸ Nat.le_add_right ..)).trans ?_
    have hframe : (Frame.initial entry arg exit).length = Frame.words := rfl
    rw [List.length_replicate, hframe, Nat.add_sub_cancel_left]
    interval_cases i <;> rfl

/-- The used part of a new stack is the frame. -/
theorem Frame.dropWhile_stack (n : Nat) (entry arg exit : Word) :
    (Frame.stack n (Frame.initial entry arg exit)).dropWhile (· = blank) = Frame.initial entry arg exit := by
  rw [Frame.stack, List.dropWhile_append_of_pos (by simp)]
  rfl

/-- The lowest word of a new stack is its guard. -/
theorem Frame.Tops.intact {t : Table} {p : Pid} {words : List Word} {entry arg exit : Word}
    (h : Frame.Tops words entry arg exit) (hp : t.stack p = .ok words) : t.stackIntact p = .ok true := by
  have hfirst : words.head? = some blank := by
    rw [List.head?_eq_getElem?]
    exact h.below 0 (Nat.sub_pos_of_lt h.room)
  rw [Table.stackIntact, hp]
  exact congrArg Except.ok (decide_eq_true hfirst)

theorem Table.stackUsed_of_stack {t : Table} {p : Pid} {words : List Word} (h : t.stack p = .ok words) :
    t.stackUsed p = .ok ((words.dropWhile (· = blank)).length * wordBytes) := by
  obtain ⟨d, hd, rfl⟩ := Table.stack_eq_ok.mp h
  rw [Table.stackUsed, Table.fetch_eq_ok.mpr hd]
  rfl

/-- There is room for the frame and a word below it, however small a stack was asked for. -/
theorem stackWords_stackSize (size : Nat) : stackWords (Kernel.stackSize size) * wordBytes =
    (max (if size = 0 then 1024 else size) 144 + 7) / 8 * 8 := by
  obtain ⟨asked, hasked⟩ : ∃ asked, asked = if size = 0 then 1024 else size := ⟨_, rfl⟩
  show (max (max (if size = 0 then 1024 else size) 144) 8 + 7) / 8 * 8 = _
  rw [← hasked, Nat.max_eq_left (Nat.le_trans (by decide) (Nat.le_max_right asked 144))]

namespace Kernel

/-- The start of a process, told of its descriptor `d` and of the words of its stack. -/
structure Builds (k : Kernel) (size : Nat) (entry arg : Word) (p : Pid) (k' : Kernel) (d : Descriptor)
    (words : List Word) : Prop where
  fresh : k.process? p = none
  found : k'.process? p = some d
  stack : k'.table.stack p = .ok words
  bytes : d.stack.bytes = (max (if size = 0 then 1024 else size) 144 + 7) / 8 * 8
  length : words.length * wordBytes = d.stack.bytes
  frame : Frame.Tops words entry arg k.config.exitVector
  intact : k'.table.stackIntact p = .ok true
  used : k'.table.stackUsed p = .ok 136
  /-- The process resumes at the address of the frame. -/
  resumes : ∃ addr, k'.continuation? p = some addr ∧ k'.table.stackAddress p (words.length - Frame.words) = .ok addr
  active : d.state = .active
  last : ∃ ahead, k.table.chain (k.scheduler.queues.get .low).head = .ok ahead ∧
    k'.table.chain (k'.scheduler.queues.get .low).head = .ok (ahead ++ [p]) ∧
    ∀ q, q ≠ p → k'.process? q =
      (k.process? q).map fun e => if ahead.getLast? = some q then { e with next := some p } else e
  scores : ∀ q e, k'.process? q = some e → e.score = 0
  others : ∀ q, q ≠ p → k'.table.stack q = k.table.stack q

variable {k k' : Kernel} {config : Config} {steps : List Step} {p : Pid} {name : String} {size : Nat} {entry arg : Word}

theorem start_asleep (h : (k.start name size entry arg).outcome = .ok (p, k')) : k.running = false := by
  by_contra hrunning
  rw [start, if_pos (Bool.eq_true_of_not_eq_false hrunning)] at h
  cases h

end Kernel

namespace Run

variable {k k' : Kernel} {config : Config} {steps : List Step} {p : Pid} {name : String} {size : Nat} {entry arg : Word}

/-- Before the launch all scores are zero. -/
theorem score_eq_zero (h : Run Call.Proper config steps k) (hr : k.running = false) {q : Pid} {d : Descriptor}
    (hd : k.process? q = some d) : d.score = 0 := by
  have hsum := h.sum_runtimes.trans (h.uptime_eq_zero hr)
  have hmem : d.runtime ∈ k.runtimes := List.mem_map_of_mem (List.mem_of_getElem? hd)
  rw [Descriptor.score, List.sum_eq_zero_iff.mp hsum _ hmem, Nat.zero_div]

/-- A start tells of the plain kernels before and after it. -/
theorem start_enlists (h : Run Call.Proper config steps k)
    (hok : (k.call (.start name size entry arg)).outcome = .ok (.pid p, k')) : ∃ P Q d, k.Shows P ∧ k'.Shows Q ∧
      P.Enlists p d Q ∧ d.state = .active ∧ d.score = 0 ∧
      d.stack = ⟨k.table.frontier, stackWords (Kernel.stackSize size)⟩ ∧
      d.context = .arena (k.table.frontier + (stackWords (Kernel.stackSize size) - Frame.words)) ∧
      k.Founds name (stackWords (Kernel.stackSize size)) (Frame.initial entry arg k.config.exitVector) p k' := by
  obtain ⟨P, hk, hrest⟩ := h.resting
  obtain ⟨lines, hk', -⟩ := hk.call_ok (c := .start name size entry arg) hrest trivial hok
  obtain ⟨⟨q, k₁⟩, hstart, hanswer⟩ := Traced.bind_eq_ok.mp hok
  cases hanswer
  have hasleep := Kernel.start_asleep hstart
  have hfounds := (k.start_safely (fun _ => False) name size entry arg).of_ok hstart
  obtain ⟨words, hw⟩ : ∃ words, words = stackWords (Kernel.stackSize size) := ⟨_, rfl⟩
  have hfits : Frame.words + 1 ≤ words := hw ▸ frame_fits size
  have hfrontier : P.frontier = k.table.frontier := by rw [hk.1]; rfl
  rw [← hw] at hfounds ⊢
  have hframe : Frame.install? (Frame.initial entry arg P.config.exitVector)
      ((P.create name words).arena.slice ⟨P.frontier, words⟩) =
        some (words - Frame.words, Frame.stack words (Frame.initial entry arg P.config.exitVector)) := by
    have hslice := P.arena.slice_clear (r := ⟨P.frontier, words⟩) (hfrontier ▸ hfounds.room)
    exact (congrArg _ hslice).trans (Frame.install?_blank (Nat.le_of_succ_le hfits))
  have hscore : ∀ q d, P.process q = some d → d.score = 0 := by
    intro q d hd
    obtain ⟨e, he, rfl⟩ := hk.get hd
    exact (Descriptor.plain_score e).trans (h.score_eq_zero hasleep he)
  have hpid : p = .ofIndex P.size := hk.size.symm ▸ hfounds.pid
  have henlists := Plain.startWith_enlists hrest.sound hscore hframe
  rw [hfrontier, ← hpid] at henlists
  obtain ⟨d, hd⟩ : ∃ d, d = { Descriptor.fresh p name ⟨k.table.frontier, words⟩ with
    context := .arena (k.table.frontier + (words - Frame.words)), link := some (.ready .low) } := ⟨_, rfl⟩
  rw [← hd] at henlists
  refine ⟨P, P.startWith name words entry arg, d, hk, hw ▸ hk', henlists, ?_⟩
  rw [hd]
  exact ⟨rfl, Nat.zero_div _, rfl, rfl, hfounds⟩

/-- Before the launch, a start that returns has built an isolated process behind all others. -/
theorem builds (h : Run Call.Proper config steps k)
    (hok : (k.call (.start name size entry arg)).outcome = .ok (.pid p, k')) :
    ∃ d words, k.Builds size entry arg p k' d words := by
  obtain ⟨⟨q, k₁⟩, hstart, -⟩ := Traced.bind_eq_ok.mp hok
  have hasleep := Kernel.start_asleep hstart
  obtain ⟨P, Q, d', hk, hk', henlists, hactive, hscore, hregion, hcontext, hfounds⟩ := h.start_enlists hok
  obtain ⟨d, hd, rfl⟩ := hk'.get (p := p) (by rw [henlists.process, Function.update_self])
  rw [Descriptor.plain_state] at hactive
  rw [Descriptor.plain_stack] at hregion
  rw [Descriptor.plain_context] at hcontext
  have hfits : Frame.words < stackWords (Kernel.stackSize size) := frame_fits size
  obtain ⟨content, hcontent⟩ : ∃ content, content = Frame.stack (stackWords (Kernel.stackSize size))
      (Frame.initial entry arg k.config.exitVector) := ⟨_, rfl⟩
  have htops : Frame.Tops content entry arg k.config.exitVector := hcontent ▸ Frame.stack_tops hfits ..
  have hroom : (Frame.initial entry arg k.config.exitVector).length ≤ stackWords (Kernel.stackSize size) :=
    Nat.le_of_lt hfits
  have hlength : content.length = stackWords (Kernel.stackSize size) := hcontent ▸ Frame.length_stack hroom
  have hstacks : ∀ q, k'.table.stack q = if q = p then .ok content else k.table.stack q := by
    intro q
    rw [Table.stack_of_memory hfounds.memory, h.guarded.separate.build_stack hfounds.size hfounds.room hroom,
      hfounds.pid, hcontent]
  have hstack : k'.table.stack p = .ok content := (hstacks p).trans (if_pos rfl)
  refine ⟨d, content, ?_⟩
  constructor
  case fresh =>
    rw [hfounds.pid]
    have hindex := Pid.index_ofIndex (Nat.lt_trans hfounds.size (by decide))
    exact List.getElem?_eq_none (Nat.le_of_eq hindex.symm)
  case found => exact hd
  case stack => exact hstack
  case bytes => rw [hregion, ← stackWords_stackSize size, StackRegion.bytes]
  case length => rw [hregion, hlength, StackRegion.bytes]
  case frame => exact htops
  case intact => exact htops.intact hstack
  case used =>
    rw [Table.stackUsed_of_stack hstack, hcontent, Frame.dropWhile_stack]
    rfl
  case resumes =>
    refine ⟨Arena.addressOf (d.stack.base + (content.length - Frame.words)), ?_, ?_⟩
    · rw [Kernel.continuation?, show k'.process? p = some d from hd, Option.map_some, hcontext, hregion, hlength]
      rfl
    · rw [Table.stackAddress, Table.fetch_eq_ok.mpr hd]
      rfl
  case active => exact hactive
  case last =>
    refine ⟨_, (hk.2.holds (.ready .low)).walk, ?_, fun q hq => hk.process?_enlisted hk' henlists hq⟩
    have hwalk := (hk'.2.holds (.ready .low)).walk
    rwa [henlists.queue, Function.update_self] at hwalk
  case scores =>
    exact fun q e he => hk.score_enlisted hk' henlists hscore (fun _ _ => h.score_eq_zero hasleep) he
  case others => exact fun q hq => (hstacks q).trans (if_neg hq)

end Run

/-- Under either policy a start that returns has built a process of its own: its stack has the size that was asked
for, holds the frame from which it resumes and is blank below, and it is ready behind all others, of which nothing
changes but the successor of the one that was the last. No other call writes to a stack, whatever state the kernel is
in. So a stack is found to have overflown only if its port has overwritten the lowest word. -/
theorem start_builds_isolated_process (config : Config) :
    (∀ steps k k' p name size entry arg, Run Call.Proper config steps k →
      (k.call (.start name size entry arg)).outcome = .ok (.pid p, k') →
        k.config = config ∧ ∃ d words, k.Builds size entry arg p k' d words) ∧
    (∀ (k k' : Kernel) c a, (k.call c).outcome = .ok (a, k') →
      (∀ name size entry arg, c ≠ .start name size entry arg) → (∀ p i value, c ≠ .pokeStack p i value) →
        k'.table.arena = k.table.arena ∧ ∀ q, k'.table.stack q = k.table.stack q) ∧
    ∀ rule steps k c p, Run rule config steps k → (k.call c).outcome = .error (.fault (.stackOverflow p)) →
      p = k.current ∧ ∃ s ∈ steps, s.Overwrites p := by
  refine ⟨?builds, ?keeps, ?overflows⟩
  case builds =>
    intro steps k k' p name size entry arg h hok
    exact ⟨h.config_eq, h.builds hok⟩
  case keeps =>
    intro k k' c a hok hstart hport
    have hmemory := Kernel.memory_eq_of_call hok hstart hport
    exact ⟨congrArg Memory.arena hmemory, Table.stack_of_memory hmemory⟩
  case overflows =>
    intro rule steps k c p h hover
    exact (h.guarded.of_overflow hover).2

/-- One process waits for the launch. -/
def lone : List Step × Kernel :=
  ((Kernel.boot { policy := .scored, exitVector := 40 }).follow Call.Proper [.start "first" 0 0 0]).get
    (by decide +kernel)

/-- The port has written to the lowest word of the stack of the process that runs. -/
def overrun : List Step × Kernel :=
  ((Kernel.boot { policy := .scored, exitVector := 40 }).follow Call.Proper
    [.start "first" 0 0 0, .launch, .pokeStack ⟨1⟩ 0 5]).get (by decide +kernel)

/-- A second process is given a frame and a stack of 152 bytes, the launch writes to no stack, and the trap after the
write of the port finds that the stack has overflown. -/
theorem start_builds_isolated_process_lone :
    (∃ k' d words, (lone.2.call (.start "second" 150 33 7)).outcome = .ok (.pid ⟨2⟩, k') ∧
      lone.2.Builds 150 33 7 ⟨2⟩ k' d words ∧ d.stack.bytes = 152 ∧ words[16]? = some 40) ∧
    (∃ a k', (lone.2.call .launch).outcome = .ok (a, k') ∧ k'.table.arena = lone.2.table.arena) ∧
    (overrun.2.call (.trap 0 Request.yield.encode)).outcome = .error (.fault (.stackOverflow ⟨1⟩)) ∧
    ∃ s ∈ overrun.1, s.Overwrites ⟨1⟩ := by
  have hlone : Run Call.Proper { policy := .scored, exitVector := 40 } lone.1 lone.2 :=
    Run.of_boot (Option.some_get _).symm
  have hoverrun : Run Call.Proper { policy := .scored, exitVector := 40 } overrun.1 overrun.2 :=
    Run.of_boot (Option.some_get _).symm
  have hstarts : (lone.2.call (.start "second" 150 33 7)).outcome.map (·.1) = .ok (.pid ⟨2⟩) := by decide +kernel
  have hlaunches : (lone.2.call .launch).outcome.isOk = true := by decide +kernel
  have hoverflows : (overrun.2.call (.trap 0 Request.yield.encode)).outcome = .error (.fault (.stackOverflow ⟨1⟩)) := by
    decide +kernel
  obtain ⟨hbuilds, hkeeps, hoverwritten⟩ := start_builds_isolated_process { policy := .scored, exitVector := 40 }
  refine ⟨?_, ?_, hoverflows, (hoverwritten _ _ _ _ _ hoverrun hoverflows).2⟩
  · cases hok : (lone.2.call (.start "second" 150 33 7)).outcome with
    | error stop =>
      rw [hok] at hstarts
      cases hstarts
    | ok done =>
      rw [hok] at hstarts
      obtain ⟨a, k'⟩ := done
      obtain rfl : a = .pid ⟨2⟩ := Except.ok.inj hstarts
      obtain ⟨hconfig, d, words, hbuilt⟩ := hbuilds _ _ _ _ _ _ _ _ hlone hok
      have hlength : words.length * wordBytes = 19 * wordBytes := hbuilt.length.trans hbuilt.bytes
      have hexit := hbuilt.frame.top 14 (by decide)
      rw [Nat.eq_of_mul_eq_mul_right (by decide) hlength, hconfig] at hexit
      exact ⟨k', d, words, rfl, hbuilt, hbuilt.bytes, hexit⟩
  · cases hok : (lone.2.call .launch).outcome with
    | error stop =>
      rw [hok] at hlaunches
      cases hlaunches
    | ok done => exact ⟨done.1, done.2, rfl, (hkeeps _ _ _ _ hok (by simp) (by simp)).1⟩

end Rendezvous
