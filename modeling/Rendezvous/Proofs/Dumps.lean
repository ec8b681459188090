import Rendezvous.Proofs.Names
import Rendezvous.Proofs.Resumption
import Rendezvous.Proofs.Store

/-! # The two dumps

The dump as a text and the dump in the journal have the same lines, whatever the processes are called and whatever is on
their stacks: a line is far too short for the line buffer to cut it. A request for a dump is counted, and that is all it
does to the kernel. -/

namespace Rendezvous

/-- What a dump shows of a process is within bounds: its number, its name and its stack. -/
structure Standing.Bounded (s : Standing) : Prop where
  index : s.pid.index < Limits.processes
  name : s.name.utf8ByteSize ≤ Limits.nameBytes
  stack : s.stack.stop ≤ Limits.arenaWords

namespace Kernel

open Traced

variable {k k' : Kernel} {gr : Grant} {p : Pid} {c : Call} {es : List Event} {s s' : Standing} {d : Descriptor}

/-! ### Numbers, names and stacks -/

theorem Brings.bounded {name : String} {size : Nat} (h : k.Brings gr name size k') :
    (k.newcomer name size).Bounded where
  index := by
    show (Pid.ofIndex k.table.size).index < _
    rw [Pid.index_ofIndex (Nat.lt_trans h.room (by decide))]
    exact h.room
  name := Name.size_clip_le name
  stack := by
    have hwords := h.words
    have hsome := (stackWords_rounds (stackSize size)).enough
    show k.table.frontier + stackWords (stackSize size) ≤ _
    simp only [wordBytes] at hsome
    omega

/-- The number, the name and the stack of a process last. -/
theorem Handles.lasting (h : k.Handles c k' es) (hs : k.standing? p = some s) :
    ∃ s', k'.standing? p = some s' ∧ s'.pid = s.pid ∧ s'.name = s.name ∧ s'.stack = s.stack := by
  obtain ⟨_, pending, hs', rfl⟩ := h.sets hs
  have hsame : (c.sets s).pid = s.pid ∧ (c.sets s).name = s.name ∧ (c.sets s).stack = s.stack := by
    cases c <;> exact ⟨rfl, rfl, rfl⟩
  refine ⟨_, hs', ?_⟩
  split
  · exact hsame
  · exact ⟨rfl, rfl, rfl⟩

theorem call_bounded {a : Answer} (hnumbered : k.Numbered) (hok : (k.call c).outcome = .ok (a, k'))
    (h : ∀ s ∈ k.standings, s.Bounded) : ∀ s ∈ k'.standings, s.Bounded := by
  have hhandles : k.Handles c k' _ := call_handles hnumbered c _ hok
  intro s' hs'
  obtain ⟨i, hi⟩ := List.getElem?_of_mem hs'
  have hfound : k'.standing? s'.pid = some s' := by
    rw [standing?, hhandles.numbered hnumbered i s' hi]
    exact hi
  cases hs : k.standing? s'.pid with
  | some s =>
    obtain ⟨hindex, hname, hstack⟩ := h s (List.mem_of_getElem? hs)
    obtain ⟨s₁, hs₁, hpid', hname', hstack'⟩ := hhandles.lasting hs
    obtain rfl := Option.some_inj.mp (hfound.symm.trans hs₁)
    exact ⟨hpid' ▸ hindex, hname' ▸ hname, hstack' ▸ hstack⟩
  | none =>
    -- Only a start brings a process, and it clips the name.
    obtain ⟨⟨name, size, entry, arg, rfl⟩, -⟩ := hhandles.brings hs hfound
    obtain ⟨⟨pid, k₁⟩, hstart, hpure⟩ := bind_eq_ok.mp hok
    obtain rfl : k₁ = k' := (Prod.mk.inj (Except.ok.inj hpure)).2
    obtain ⟨hbrings, -⟩ := start_brings (k.grant (.start name size entry arg)) k name size entry arg _ hstart
    rw [hbrings.standings] at hs'
    rcases List.mem_append.mp hs' with hold | hnew
    · exact h s' hold
    · rw [List.mem_singleton.mp hnew]
      exact hbrings.bounded

theorem boot_bounded (config : Config) : ∀ s ∈ (boot config).standings, s.Bounded := by
  intro s hs
  obtain rfl := List.mem_singleton.mp hs
  exact ⟨by decide, Name.size_clip_le "IDLE", by decide⟩

/-! ### The process that runs -/

/-- The process that runs goes on running. -/
def Stays (k : Kernel) (x : Traced Kernel) : Prop := x.Tells fun k' _ => k'.current = k.current

theorem amend_stays (k : Kernel) (p : Pid) (f : Descriptor → Descriptor) : k.Stays (k.amend p f) := by
  intro k' hk'
  obtain ⟨⟨d, -, rfl⟩, -⟩ := k.amend_quietly p f k' hk'
  rfl

theorem makeReady_stays (k : Kernel) (p : Pid) : k.Stays (k.makeReady p) := by
  refine tells_after ?_
  rintro ⟨_, s, t⟩
  exact tells_pure rfl

theorem cancelTimeout_stays (k : Kernel) (p : Pid) : k.Stays (k.cancelTimeout p) := by
  refine tells_skip fun d => ?_
  split
  · refine tells_after ?_
    rintro ⟨_, r, t⟩
    exact tells_pure rfl
  · exact tells_pure rfl

theorem notify_stays (k : Kernel) (p : Pid) (ty : MessageType) : k.Stays (k.notify p ty) := by
  refine Tells.bind (k.amend_stays p _) fun k₁ _ h₁ => ?_
  exact tells_after fun _ => tells_pure h₁

theorem interrupt_stays (k : Kernel) (p : Pid) : (k.interrupt p).Tells fun a _ => a.2.current = k.current := by
  refine tells_after fun dest => tells_skip fun d => ?_
  dsimp only
  split
  · refine Tells.bind (cancelTimeout_stays _ dest) fun k₁ _ h₁ => ?_
    refine Tells.bind (k₁.notify_stays dest .interrupt) fun k₂ _ h₂ => ?_
    refine Tells.bind (k₂.makeReady_stays dest) fun k₃ _ h₃ => tells_skip fun own => ?_
    exact tells_pure (h₃.trans (h₂.trans h₁))
  · split
    · exact tells_after fun _ => tells_pure rfl
    · exact Tells.bind (amend_stays _ dest _) fun k₁ _ h₁ => tells_pure h₁

theorem start_stays (k : Kernel) (name : String) (size : Nat) (entry arg : Word) :
    (k.start name size entry arg).Tells fun a _ => a.2.current = k.current := by
  unfold start
  split
  · exact tells_halt
  · refine tells_after ?_
    rintro ⟨p, t⟩
    refine tells_skip fun d => ?_
    dsimp only
    split
    · exact fun _ ha => by cases ha
    · refine Tells.bind (amend_stays _ p _) fun k₁ _ h₁ => ?_
      refine Tells.bind (k₁.makeReady_stays p) fun k₂ _ h₂ => ?_
      exact tells_after fun _ => tells_pure (h₂.trans h₁)

theorem connect_stays (k : Kernel) (irq : Int32) : k.Stays (k.connect irq) := by
  unfold connect
  split
  · refine tells_after ?_
    rintro ⟨_, lines⟩
    exact Tells.bind (amend_stays _ _ _) fun k₁ _ h₁ => tells_after fun _ => tells_pure h₁
  · exact tells_halt

theorem setPriority_stays (k : Kernel) (level : Priority) : k.Stays (k.setPriority level) := by
  unfold setPriority
  split
  · split
    · exact amend_stays _ _ _
    · exact tells_halt
  · exact tells_halt

theorem takeMessage_stays (k : Kernel) (p : Pid) : (k.takeMessage p).Tells fun a _ => a.2.current = k.current := by
  unfold takeMessage
  split
  · exact tells_pure rfl
  · exact Tells.bind (amend_stays k p _) fun k₁ _ h₁ => tells_pure h₁

theorem pokeStack_stays (k : Kernel) (p : Pid) (i : Nat) (value : Word) : k.Stays (k.pokeStack p i value) := by
  intro k' hk'
  obtain ⟨t, -, rfl⟩ := pokeStack_eq_ok.mp hk'
  rfl

/-- A call that resumes no process leaves the processor to the one that has it. -/
theorem call_stays (hc : ¬c.Resumes) : (k.call c).Tells fun r _ => r.2.current = k.current := by
  cases c with
  | launch | serve _ | trap _ _ | preempt _ => exact absurd trivial hc
  | start name size entry arg => exact (start_stays k name size entry arg).bind fun _ _ h => tells_pure h
  | connect irq => exact Tells.bind (k.connect_stays irq) fun _ _ h => tells_pure h
  | setPriority level => exact Tells.bind (k.setPriority_stays level) fun _ _ h => tells_pure h
  | interrupt p => exact (k.interrupt_stays p).bind fun _ _ h => tells_pure h
  | interruptRequest irq =>
    have hrequest : (k.interruptRequest irq).Tells fun a _ => a.2.current = k.current :=
      tells_after fun p => k.interrupt_stays p
    exact hrequest.bind fun _ _ h => tells_pure h
  | takeMessage p => exact (k.takeMessage_stays p).bind fun _ _ h => tells_pure h
  | pokeStack p i value => exact Tells.bind (k.pokeStack_stays p i value) fun _ _ h => tells_pure h

/-- After every call there is a process to run. -/
theorem call_occupied {a : Answer} (hnumbered : k.Numbered) (hok : (k.call c).outcome = .ok (a, k'))
    (h : (k.standing? k.current).isSome) : (k'.standing? k'.current).isSome := by
  by_cases hc : c.Resumes
  · obtain ⟨w, -, hw⟩ := call_resumed hc _ hok
    obtain ⟨d, hd, -⟩ := Option.map_eq_some_iff.mp hw
    rw [standing?_eq, hd, Option.map_some, Option.isSome_some]
  · have hhandles : k.Handles c k' _ := call_handles hnumbered c _ hok
    have hcurrent : k'.current = k.current := call_stays hc _ hok
    rw [hcurrent]
    exact hhandles.grows h

/-! ### Lines -/

theorem usedBytes_le (t : Table) (r : StackRegion) : t.usedBytes r ≤ r.bytes := by
  have hslice : (t.arena.slice r).length ≤ r.words := List.length_take_le ..
  exact Nat.mul_le_mul_right _ (Nat.le_trans (List.dropWhile_sublist _).length_le hslice)

/-- Bytes of stack used and owned by a process, as the dump puts them. -/
def figure (k : Kernel) (d : Descriptor) : String := String.join (k.figurePieces d)

theorem figure_eq (k : Kernel) (d : Descriptor) :
    k.figure d = toString (k.table.usedBytes d.stack) ++ "/" ++ toString d.stack.bytes := by
  rw [figure, figurePieces]
  simp [String.append_assoc]

theorem bytes_le (h : d.standing.Bounded) : d.stack.bytes ≤ Limits.arenaBytes := by
  have hstack : d.stack.base + d.stack.words ≤ Limits.arenaWords := h.stack
  exact Nat.mul_le_mul_right wordBytes (Nat.le_trans (Nat.le_add_left ..) hstack)

theorem size_figure_le (h : d.standing.Bounded) (k : Kernel) : (k.figure d).utf8ByteSize ≤ 11 := by
  have howned := bytes_le h
  have hused := usedBytes_le k.table d.stack
  have hlarge : Limits.arenaBytes < 10 ^ 5 := by decide
  have h₁ := Text.size_toString_le (e := 5) (by decide) (Nat.lt_of_le_of_lt (Nat.le_trans hused howned) hlarge)
  have h₂ := Text.size_toString_le (e := 5) (by decide) (Nat.lt_of_le_of_lt howned hlarge)
  have hslash : "/".utf8ByteSize = 1 := rfl
  rw [figure, figurePieces, Text.size_join]
  simp only [List.map_cons, List.map_nil, List.sum_cons, List.sum_nil]
  omega

/-- The stack figure goes into its buffer. -/
theorem stackFigure?_eq (h : d.standing.Bounded) (k : Kernel) : k.stackFigure? d = some (k.figure d) := by
  have hroom : ("" ++ k.figure d).utf8ByteSize ≤ Limits.stackFigure := by
    rw [String.empty_append]
    exact Nat.le_trans (size_figure_le h k) (by decide)
  unfold stackFigure?
  simp only [Text.fill_of_room hroom, String.empty_append]
  rfl

/-- The pieces of the line for a process. -/
def pieces (k : Kernel) (d : Descriptor) : List String := linePieces d (k.figure d)

theorem dumpPieces?_eq (h : d.standing.Bounded) (k : Kernel) : k.dumpPieces? d = some (k.pieces d) := by
  rw [dumpPieces?, stackFigure?_eq h, Option.map_some]
  rfl

theorem address_lt (h : d.standing.Bounded) : (Arena.addressOf d.stack.base).toNat < 16 ^ 8 := by
  have hstack : d.stack.base + d.stack.words ≤ Limits.arenaWords := h.stack
  rw [Arena.addressOf, UInt64.toNat_ofNat']
  simp only [Arena.address, Limits.arenaWords, Limits.arenaBytes, wordBytes] at *
  omega

/-- A line stays far below the size of the line buffer. -/
theorem size_line_le (h : d.standing.Bounded) (k : Kernel) :
    (String.join (k.pieces d)).utf8ByteSize ≤ Limits.dumpLine := by
  have hindex := Text.size_toString_le (e := 2) (by decide) (Nat.lt_trans h.index (by decide))
  have haddress := Text.size_hex_le (by decide) (address_lt h)
  have hfigure := size_figure_le h k
  have hname := h.name
  have hnumber := Text.size_padStart_le 2 ' ' (toString d.pid.index)
  have hzeros := Text.size_padStart_le 8 '0' (Text.hex (Arena.addressOf d.stack.base).toNat)
  have hblanks := Text.size_padEnd_le 9 (k.figure d)
  have htag : d.state.tag.utf8ByteSize = 9 := by cases d.state <;> rfl
  have hfixed : ": ".utf8ByteSize = 2 ∧ " ".utf8ByteSize = 1 ∧ " stk=".utf8ByteSize = 5 := ⟨rfl, rfl, rfl⟩
  have hfill : ' '.utf8Size = 1 ∧ '0'.utf8Size = 1 := ⟨rfl, rfl⟩
  simp only [Descriptor.standing, Limits.nameBytes] at hindex hname
  rw [Text.size_join, pieces, linePieces, Limits.dumpLine]
  simp only [List.map_cons, List.map_nil, List.sum_cons, List.sum_nil]
  omega

theorem dumpLine_eq (h : d.standing.Bounded) (k : Kernel) : k.dumpLine d = String.join (k.pieces d) := by
  have hroom : ("" ++ String.join (k.pieces d)).utf8ByteSize ≤ Limits.dumpLine := by
    rw [String.empty_append]
    exact size_line_le h k
  rw [dumpLine, dumpPieces?_eq h, Option.getD_some, Text.fill_of_room hroom, String.empty_append]

/-- The dump as a text has the lines of the one in the journal. -/
theorem dump?_eq (h : ∀ d ∈ k.table.processes, d.standing.Bounded) :
    k.dump? = some (String.join (k.dumpedLines.map (· ++ "\n"))) := by
  have hpieces : k.table.processes.mapM k.dumpPieces? = some (k.table.processes.map k.pieces) := by
    generalize k.table.processes = l at h
    induction l with
    | nil => rfl
    | cons d l ih =>
      rw [List.mapM_cons, dumpPieces?_eq (h d List.mem_cons_self), ih fun e he => h e (List.mem_cons_of_mem d he)]
      rfl
  have hlines : k.table.processes.map k.dumpLine = (k.table.processes.map k.pieces).map String.join := by
    rw [List.map_map]
    refine List.map_congr_left fun d hd => ?_
    rw [dumpLine_eq (h d hd) k, Function.comp_apply]
  have htexts : [dumpHeading] ++ (k.table.processes.map k.pieces).map String.join ++ [k.dumpFooting] =
      k.dumpedLines := by
    rw [dumpedLines, hlines]
    rfl
  rw [dump?, hpieces]
  exact congrArg (fun texts : List String => some (String.join (texts.map (· ++ "\n")))) htexts

/-- A request for a dump is counted and noted, and writes the lines. -/
theorem serve_dump (hd : k.process? k.current = some d) : k.serve .dump =
    ⟨.requested k.current .dump :: k.dumpedLines.map .dumped, .ok (Arena.resolve d.context,
      { k with counters := { k.counters with syscalls := k.counters.syscalls + 1 } })⟩ := by
  obtain ⟨k₁, hk₁⟩ : ∃ k₁ : Kernel,
      k₁ = { k with counters := { k.counters with syscalls := k.counters.syscalls + 1 } } := ⟨_, rfl⟩
  have hresume : k₁.resume = ⟨[], .ok (Arena.resolve d.context)⟩ := by
    have hfetch : k₁.fetch k₁.current = ⟨[], .ok d⟩ := by
      rw [hk₁]
      exact congrArg Traced.lift (Table.fetch_eq_ok.mpr hd)
    rw [resume, hfetch]
    rfl
  have hdump : k₁.dumpToLog = ⟨k.dumpedLines.map .dumped, .ok ()⟩ := by
    rw [dumpToLog_eq, hk₁]
    rfl
  have hperform : k₁.perform .dump = ⟨k.dumpedLines.map .dumped, .ok k₁⟩ := by
    show (k₁.dumpToLog >>= fun _ => pure k₁) = _
    rw [hdump]
    show (⟨_ ++ [], .ok k₁⟩ : Traced Kernel) = _
    rw [List.append_nil]
  rw [← hk₁]
  unfold serve note
  simp only [← hk₁, hperform, bind_assoc, pure_bind]
  show (⟨[.requested k.current .dump] ++ (k.dumpedLines.map .dumped ++ (k₁.resume >>= fun w => pure (w, k₁)).events),
    (k₁.resume >>= fun w => pure (w, k₁)).outcome⟩ : Traced (Word × Kernel)) = _
  rw [hresume]
  show (⟨[_] ++ (_ ++ []), .ok (_, k₁)⟩ : Traced (Word × Kernel)) = _
  rw [List.append_nil, List.singleton_append]

end Kernel

/-- The records of a computation that are kept for information, without their severity. -/
def Traced.infos {α : Type} (x : Traced α) : List String :=
  (x.journal.filter fun r => r.severity = .info).map Record.message

theorem Traced.infos_of_dumped {α : Type} {x : Traced α} {p : Pid} {r : Request} {lines : List String}
    (h : x.events = .requested p r :: lines.map .dumped) : x.infos = lines := by
  have hrecords : (lines.map Event.dumped).filterMap Event.record? = lines.map (Record.mk .info) := by
    rw [List.filterMap_map, ← List.filterMap_eq_map]
    rfl
  have hkept : (lines.map (Record.mk .info)).filter (fun r => r.severity = .info) = lines.map (Record.mk .info) :=
    List.filter_eq_self.mpr (by simp)
  have htrace : x.journal = ⟨.trace, s!"syscall: {p} {r.text}"⟩ :: lines.map (Record.mk .info) := by
    rw [journal, h, ← hrecords]
    rfl
  rw [infos, htrace, List.filter_cons_of_neg (by simp), hkept, List.map_map]
  exact List.map_id lines

namespace Run

variable {rule : Kernel → Call → Prop} {config : Config} {steps : List Step} {k : Kernel}

theorem bounded (h : Run rule config steps k) : ∀ s ∈ k.standings, s.Bounded := by
  induction h with
  | boot => exact Kernel.boot_bounded config
  | call before _ done ih => exact Kernel.call_bounded before.numbered done ih

theorem occupied (h : Run rule config steps k) : (k.standing? k.current).isSome := by
  induction h with
  | boot => rfl
  | call before _ done ih => exact Kernel.call_occupied before.numbered done ih

end Run

/-- The dump as a text has the lines that a request for a dump writes to the journal. None of them is cut, neither are
their stack figures, and the request changes nothing but the count of requests. -/
theorem dumps_agree {rule : Kernel → Call → Prop} {config : Config} {steps : List Step} {k : Kernel}
    (h : Run rule config steps k) :
    k.dump? = some (String.join ((k.serve .dump).infos.map (· ++ "\n"))) ∧
    (∀ d ∈ k.table.processes,
      k.figure d = toString (k.table.usedBytes d.stack) ++ "/" ++ toString d.stack.bytes ∧
      k.stackFigure? d = some (k.figure d) ∧ (k.figure d).utf8ByteSize ≤ Limits.stackFigure ∧
      k.dumpPieces? d = some (k.pieces d) ∧ k.dumpLine d = String.join (k.pieces d) ∧
      (String.join (k.pieces d)).utf8ByteSize ≤ Limits.dumpLine) ∧
    ∃ addr, (k.serve .dump).outcome =
      .ok (addr, { k with counters := { k.counters with syscalls := k.counters.syscalls + 1 } }) := by
  have hbounded : ∀ d ∈ k.table.processes, d.standing.Bounded := by
    intro d hd
    exact h.bounded d.standing (List.mem_map_of_mem hd)
  -- The process that asks for the dump exists, so the request returns.
  obtain ⟨s, hs⟩ := Option.isSome_iff_exists.mp h.occupied
  rw [Kernel.standing?_eq] at hs
  obtain ⟨d, hd, -⟩ := Option.map_eq_some_iff.mp hs
  have hserve := Kernel.serve_dump hd
  have hinfos : (k.serve .dump).infos = k.dumpedLines := Traced.infos_of_dumped (by rw [hserve])
  refine ⟨?_, fun d hd => ?_, ?_⟩
  · rw [hinfos]
    exact Kernel.dump?_eq hbounded
  · have hb := hbounded d hd
    have hfits : (k.figure d).utf8ByteSize ≤ Limits.stackFigure := Nat.le_trans (Kernel.size_figure_le hb k) (by decide)
    exact ⟨k.figure_eq d, Kernel.stackFigure?_eq hb k, hfits, Kernel.dumpPieces?_eq hb k, Kernel.dumpLine_eq hb k,
      Kernel.size_line_le hb k⟩
  · rw [hserve]
    exact ⟨_, rfl⟩

/-- A process whose name is cut, with a word written deep into its stack. -/
def accented : List Step × Kernel :=
  ((Kernel.boot {}).follow (fun _ _ => True) [.start "éééééééé" 256 0 0, .pokeStack ⟨1⟩ 3 7, .launch]).get
    (by decide +kernel)

theorem dumps_agree_accented : accented.2.table.processes.map (·.name) = ["IDLE", "ééééééé"] ∧
    accented.2.dump? = some (String.join ((accented.2.serve .dump).infos.map (· ++ "\n"))) := by
  have hrun : Run (fun _ _ => True) {} accented.1 accented.2 := Run.of_boot (Option.some_get _).symm
  exact ⟨by decide +kernel, (dumps_agree hrun).1⟩

end Rendezvous
