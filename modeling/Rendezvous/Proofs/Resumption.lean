import Rendezvous.Proofs.Handling

/-! # Where processes resume

A process resumes at the stack pointer with which it was last in the kernel, whatever address that is, and at its
first frame until then. No other call moves the place where it resumes. -/

namespace Rendezvous

namespace Call

/-- The stack pointer that a call keeps for the process that runs. -/
def pointer? : Call → Option Word
  | .trap psp _ | .preempt psp => some psp
  | _ => none

/-- Whether a call returns the address to resume at. -/
def Resumes : Call → Prop
  | .launch | .serve _ | .trap .. | .preempt _ => True
  | _ => False

theorem sets_stack (c : Call) (s : Standing) : (c.sets s).stack = s.stack := by
  cases c <;> rfl

theorem sets_context (c : Call) (s : Standing) : (c.sets s).context = (c.pointer?.map Arena.locate).getD s.context := by
  cases c <;> rfl

/-- An interrupt sets nothing. -/
theorem sets_of_signal {c : Call} {lines : InterruptLines} {p : Pid} (h : c.signal? lines = some p) (s : Standing) :
    c.sets s = s := by
  cases c with
  | interrupt _ | interruptRequest _ => rfl
  | _ => cases h

end Call

/-- The stack pointer that was kept for `p` most recently. -/
def lastPointer (steps : List Step) (p : Pid) : Option Word :=
  (steps.filterMap fun s => if s.before.current = p then s.call.pointer? else none).getLast?

/-- Where a process starts: at the first frame, on top of its stack. The idle process has no such frame. -/
def origin (p : Pid) (r : StackRegion) : Word :=
  if p = .idle then 0 else Arena.addressOf (r.base + (r.words - Frame.words))

theorem lastPointer_concat (steps : List Step) (s : Step) (p : Pid) : lastPointer (steps ++ [s]) p =
    (if s.before.current = p then s.call.pointer? else none).or (lastPointer steps p) := by
  rw [lastPointer, List.filterMap_append, List.getLast?_append, lastPointer]
  cases hs : (if s.before.current = p then s.call.pointer? else none) <;> simp [hs]

namespace Kernel

open Traced

variable {k k' : Kernel} {gr : Grant} {p q : Pid} {g : Standing → Standing} {es : List Event} {c : Call}
  {s s' : Standing} {a : Answer}

theorem Alters.standing (h : k.Alters gr p g k') (hs : k.standing? q = some s) :
    k'.standing? q = some (if q = p then g s else s) := by
  rw [h.standing?, hs]
  split <;> rfl

theorem Alters.unborn (h : k.Alters gr p g k') (hn : k.standing? q = none) : k'.standing? q = none := by
  rw [h.standing?, hn]
  split <;> rfl

theorem continuation?_eq_standing (k : Kernel) (p : Pid) :
    k.continuation? p = (k.standing? p).map fun s => Arena.resolve s.context := by
  rw [standing?_eq, Option.map_map]
  rfl

/-- What a call makes of a standing, but for its pending interrupt. -/
theorem Handles.sets (h : k.Handles c k' es) (hs : k.standing? p = some s) : ∃ s' pending, k'.standing? p = some s' ∧
    s' = { (if p = k.current then c.sets s else s) with pending := pending } := by
  cases h with
  | quietly _ alters => exact ⟨_, _, alters.standing hs, rfl⟩
  | takes _ takes =>
    refine ⟨_, if p = k.current then false else s.pending, takes.alters.standing hs, ?_⟩
    split <;> rfl
  | starts new call started standings =>
    obtain ⟨name, size, entry, arg, rfl⟩ := call
    have hp : p.index ≠ k.table.size := fun hp => by cases hs.symm.trans (standing?_eq_none.mpr hp.ge)
    refine ⟨s, s.pending, ?_, ?_⟩
    · rw [standing?_concat standings, if_neg hp, hs]
    · simp [Call.sets]
  | delivers dest signal keeps =>
    refine ⟨s, s.pending, ?_, by simp [Call.sets_of_signal signal]⟩
    rw [standing?, keeps.standings]
    exact hs
  | flags dest _ signal _ _ alters =>
    refine ⟨_, if p = dest then true else s.pending, alters.standing hs, ?_⟩
    rw [Call.sets_of_signal signal, ite_self]
    split <;> rfl
  | coalesces dest _ signal _ _ standings =>
    refine ⟨s, s.pending, ?_, by simp [Call.sets_of_signal signal]⟩
    rw [standing?, standings]
    exact hs

/-- What a call makes of the stack and the context of a process. -/
theorem Handles.keeps (h : k.Handles c k' es) (hs : k.standing? p = some s) : ∃ s', k'.standing? p = some s' ∧
    s'.stack = s.stack ∧
    s'.context = if p = k.current then (c.pointer?.map Arena.locate).getD s.context else s.context := by
  obtain ⟨_, pending, hs', rfl⟩ := h.sets hs
  refine ⟨_, hs', ?_, ?_⟩
  · split <;> simp [Call.sets_stack]
  · split <;> simp [Call.sets_context]

/-- A process that a call brings has been started by it. -/
theorem Handles.brings (h : k.Handles c k' es) (hn : k.standing? p = none) (hs : k'.standing? p = some s) :
    (∃ name size entry arg, c = .start name size entry arg) ∧ s.Started p.index := by
  have hold : k'.standing? p = none → (∃ name size entry arg, c = .start name size entry arg) ∧ s.Started p.index :=
    fun hnone => by cases hnone.symm.trans hs
  cases h with
  | quietly _ alters => exact hold (alters.unborn hn)
  | takes _ takes => exact hold (takes.alters.unborn hn)
  | delivers dest _ keeps => exact hold ((keeps.alters dest).unborn hn)
  | flags _ _ _ _ _ alters => exact hold (alters.unborn hn)
  | coalesces _ _ _ _ _ standings => exact hold (by rw [standing?, standings]; exact hn)
  | starts new call started standings =>
    rw [standing?_concat standings] at hs
    split at hs
    · rename_i hp
      obtain rfl := Option.some_inj.mp hs
      exact ⟨call, hp ▸ started⟩
    · cases hn.symm.trans hs

theorem Handles.born (h : k.Handles c k' es) (hn : k.standing? p = none) (hs : k'.standing? p = some s) :
    s.Started p.index ∧ c.pointer? = none := by
  obtain ⟨⟨name, size, entry, arg, rfl⟩, started⟩ := h.brings hn hs
  exact ⟨started, rfl⟩

theorem Handles.grows (h : k.Handles c k' es) (hs : (k.standing? p).isSome) : (k'.standing? p).isSome := by
  obtain ⟨s, hs⟩ := Option.isSome_iff_exists.mp hs
  obtain ⟨s', hs', -⟩ := h.keeps hs
  rw [hs', Option.isSome_some]

/-! ### What a call returns -/

/-- The process that runs resumes at `w`. -/
def ResumesAt (k : Kernel) (w : Word) : Prop := k.continuation? k.current = some w

theorem resume_resumed (k : Kernel) : (k.resume >>= fun w => pure (w, k)).Tells fun a _ => a.2.ResumesAt a.1 :=
  (resume_quietly k).bind_tells fun _ hw => tells_pure hw

theorem serve_resumed (k : Kernel) (r : Request) : (k.serve r).Tells fun a _ => a.2.ResumesAt a.1 :=
  tells_after fun _ => tells_after resume_resumed

theorem call_resumed (hc : c.Resumes) : (k.call c).Tells fun r _ => ∃ w, r.1 = .address w ∧ r.2.ResumesAt w := by
  have hreturn : ∀ {x : Traced (Word × Kernel)}, (x.Tells fun a _ => a.2.ResumesAt a.1) →
      (x >>= fun a => pure (a.map Answer.address id)).Tells fun r _ => ∃ w, r.1 = .address w ∧ r.2.ResumesAt w :=
    fun hx => hx.bind fun a _ ha => tells_pure ⟨a.1, rfl, ha⟩
  cases c with
  | launch => exact hreturn (tells_after fun _ => tells_after resume_resumed)
  | serve r => exact hreturn (serve_resumed k r)
  | trap psp frame => exact hreturn (tells_after fun a => serve_resumed a.1 a.2)
  | preempt psp => exact hreturn (tells_after fun _ => tells_after fun _ => tells_after resume_resumed)
  | _ => exact hc.elim

/-- A call that keeps a stack pointer keeps it for a process of the table. -/
theorem call_saves {r : Answer × Kernel} (hok : (k.call c).outcome = .ok r) (hc : c.pointer? ≠ none) :
    (k.standing? k.current).isSome := by
  have hsave : ∀ {psp : Word} {k₁ : Kernel}, (k.saveContext psp).outcome = .ok k₁ →
      (k.standing? k.current).isSome := fun {psp k₁} hk₁ => by
    obtain ⟨d, hd, -⟩ := (k.amend_quietly k.current _ k₁ hk₁).1
    rw [standing?_eq, hd, Option.map_some, Option.isSome_some]
  cases c with
  | trap psp frame =>
    obtain ⟨a, hcall, -⟩ := bind_eq_ok.mp hok
    obtain ⟨⟨k₁, r'⟩, hopen, -⟩ := bind_eq_ok.mp hcall
    exact hsave (openTrap_ok hopen).1
  | preempt psp =>
    obtain ⟨a, hcall, -⟩ := bind_eq_ok.mp hok
    obtain ⟨k₁, hk₁, -⟩ := bind_eq_ok.mp hcall
    exact hsave hk₁
  | _ => exact absurd rfl hc

end Kernel

variable {rule : Kernel → Call → Prop} {config : Config} {steps : List Step} {k : Kernel} {s : Step}

/-- Each process resumes at the pointer kept for it, or starts. -/
structure Kernel.Faithful (k : Kernel) (steps : List Step) : Prop where
  idle : (k.standing? .idle).isSome
  resumes : ∀ p s, k.standing? p = some s → Arena.resolve s.context = (lastPointer steps p).getD (origin p s.stack)
  unborn : ∀ p, k.standing? p = none → lastPointer steps p = none

namespace Run

theorem faithful (h : Run rule config steps k) : k.Faithful steps := by
  induction h with
  | boot =>
    refine ⟨rfl, fun p s hs => ?_, fun _ _ => rfl⟩
    have hp : p = .idle := Pid.index_inj.mp (Nat.lt_one_iff.mp (List.getElem?_eq_some_iff.mp hs).1)
    subst hp
    obtain rfl := Option.some_inj.mp hs
    rfl
  | @call steps k k' c answer before allowed done ih =>
    have hhandles := k.call_handles before.numbered c _ done
    refine ⟨hhandles.grows ih.idle, fun p s' hs' => ?_, fun p hn => ?_⟩
    · rw [lastPointer_concat]
      cases hs : k.standing? p with
      | none =>
        -- Only a start brings a process, at its first frame.
        obtain ⟨started, hc⟩ := hhandles.born hs hs'
        have hp : p ≠ .idle := fun hp => by
          have hidle := ih.idle
          rw [← hp, hs] at hidle
          cases hidle
        rw [started.context, hc, ih.unborn p hs, origin, if_neg hp, ite_self]
        rfl
      | some s =>
        obtain ⟨_, hkept, hstack, hcontext⟩ := hhandles.keeps hs
        obtain rfl := Option.some_inj.mp (hs'.symm.trans hkept)
        have hbefore := ih.resumes p s hs
        rw [hcontext, hstack]
        by_cases hp : p = k.current
        · rw [if_pos hp, if_pos hp.symm]
          -- Only the process that runs leaves its pointer, with a trap or a preemption.
          cases c.pointer? with
          | none => exact hbefore
          | some psp => exact Arena.resolve_locate psp
        · rw [if_neg hp, if_neg (Ne.symm hp)]
          exact hbefore
    · have hold : k.standing? p = none := by
        rw [← Option.not_isSome_iff_eq_none]
        intro hs
        have hsome := hhandles.grows hs
        rw [hn] at hsome
        cases hsome
      -- A pointer is kept for a process that is there.
      have hpointer : k.current = p → c.pointer? = none := fun hp => by
        by_contra hc
        have hsaved := Kernel.call_saves done hc
        rw [hp, hold] at hsaved
        cases hsaved
      rw [lastPointer_concat, ih.unborn p hold, Option.or_none]
      exact ite_eq_right_iff.mpr hpointer

theorem continuation?_eq (h : Run rule config steps k) {p : Pid} {d : Descriptor} (hp : k.process? p = some d) :
    k.continuation? p = some ((lastPointer steps p).getD (origin p d.stack)) := by
  have hs : k.standing? p = some d.standing := by rw [Kernel.standing?_eq, hp, Option.map_some]
  rw [Kernel.continuation?_eq_standing, hs]
  exact congrArg some (h.faithful.resumes p d.standing hs)

/-- A step leaves alone where a process resumes, if it does not keep a pointer for it. -/
theorem continuation?_keeps (h : Run rule config steps k) {i : Nat} (hs : steps[i]? = some s) {p : Pid}
    (hp : (s.before.process? p).isSome) (hpointer : s.before.current = p → s.call.pointer? = none) :
    s.after.continuation? p = s.before.continuation? p := by
  obtain ⟨d, hd⟩ := Option.isSome_iff_exists.mp hp
  have hbefore : s.before.standing? p = some d.standing := by rw [Kernel.standing?_eq, hd, Option.map_some]
  obtain ⟨s', hafter, -, hcontext⟩ := (h.handles hs).keeps hbefore
  have hsame : s'.context = d.standing.context := by
    rw [hcontext]
    split
    · rename_i hcurrent
      rw [hpointer hcurrent.symm]
      rfl
    · rfl
  rw [Kernel.continuation?_eq_standing, Kernel.continuation?_eq_standing, hbefore, hafter, Option.map_some, hsame,
    Option.map_some]

/-- The address that a call returns is that of the process that runs from then on. -/
theorem answer_eq (h : Run rule config steps k) {i : Nat} (hs : steps[i]? = some s) (hc : s.call.Resumes) :
    ∃ d, s.after.process? s.after.current = some d ∧
      s.answer = .address ((lastPointer (steps.take (i + 1)) s.after.current).getD (origin s.after.current d.stack)) := by
  obtain ⟨-, -, done⟩ := h.step hs
  obtain ⟨w, hw, hresumed⟩ : ∃ w, s.answer = .address w ∧ s.after.ResumesAt w := Kernel.call_resumed hc _ done
  obtain ⟨d, hd, -⟩ := Option.map_eq_some_iff.mp hresumed
  have hkept := (h.upto hs).continuation?_eq hd
  obtain rfl := Option.some_inj.mp (Eq.trans hresumed.symm hkept)
  refine ⟨d, hd, ?_⟩
  rw [List.take_add_one, hs]
  exact hw

end Run

/-- A process resumes at the stack pointer kept for it most recently, or else at its first frame, and this is what
the calls return that resume a process. -/
theorem resumes_where_kept (h : Run rule config steps k) :
    (∀ p d, k.process? p = some d → k.continuation? p = some ((lastPointer steps p).getD (origin p d.stack))) ∧
    (∀ (i : Nat) (s : Step), steps[i]? = some s → s.call.Resumes → ∃ d, s.after.process? s.after.current = some d ∧
      s.answer = .address ((lastPointer (steps.take (i + 1)) s.after.current).getD (origin s.after.current d.stack))) ∧
    (∀ s ∈ steps, ∀ p, (s.before.process? p).isSome → (s.before.current = p → s.call.pointer? = none) →
      s.after.continuation? p = s.before.continuation? p) := by
  refine ⟨fun p d => h.continuation?_eq, fun i s => h.answer_eq, fun s hs p => ?_⟩
  obtain ⟨i, hi⟩ := List.mem_iff_getElem?.mp hs
  exact h.continuation?_keeps hi

/-- Two processes take turns; the first one leaves at an odd address outside the arena. -/
def detourCalls : List Call :=
  [.start "odd" 0 0 0, .start "even" 0 0 0, .launch, .trap 3 (Request.encode .yield), .preempt 0x20000100]

/-- What comes of the two turns. -/
def detour : List Step × Kernel := ((Kernel.boot {}).follow Call.Admissible detourCalls).get (by decide +kernel)

/-- The second process starts at its first frame, and the first one comes back to where it left. -/
theorem resumes_where_kept_detour :
    (∃ s, detour.1[3]? = some s ∧ s.after.current = ⟨2⟩ ∧ s.answer = .address (Arena.addressOf 255)) ∧
      ∃ s, detour.1[4]? = some s ∧ s.after.current = ⟨1⟩ ∧ s.answer = .address 3 := by
  have hrun : Run Call.Admissible {} detour.1 detour.2 := Run.of_boot (Option.some_get _).symm
  obtain ⟨-, hanswer, -⟩ := resumes_where_kept hrun
  refine ⟨?_, ?_⟩
  · have hstep : detour.1[3]?.map (fun s => (s.call, s.after.current, (s.after.process? ⟨2⟩).map (·.stack))) =
        some (.trap 3 (Request.encode .yield), ⟨2⟩, some ⟨144, 128⟩) := by decide +kernel
    have hfresh : lastPointer (detour.1.take 4) ⟨2⟩ = none := by decide +kernel
    obtain ⟨s, hs, heq⟩ := Option.map_eq_some_iff.mp hstep
    obtain ⟨hcall, hrest⟩ := Prod.mk.inj heq
    obtain ⟨hcurrent, hstack⟩ := Prod.mk.inj hrest
    obtain ⟨d, hd, ha⟩ := hanswer 3 s hs (hcall ▸ trivial)
    rw [hcurrent] at hd ha
    rw [hd, Option.map_some, Option.some_inj] at hstack
    rw [hfresh, hstack] at ha
    exact ⟨s, hs, hcurrent, ha⟩
  · have hstep : detour.1[4]?.map (fun s => (s.call, s.after.current)) = some (.preempt 0x20000100, ⟨1⟩) := by
      decide +kernel
    have hkept : lastPointer (detour.1.take 5) ⟨1⟩ = some 3 := by decide +kernel
    obtain ⟨s, hs, heq⟩ := Option.map_eq_some_iff.mp hstep
    obtain ⟨hcall, hcurrent⟩ := Prod.mk.inj heq
    obtain ⟨d, -, ha⟩ := hanswer 4 s hs (hcall ▸ trivial)
    rw [hcurrent, hkept] at ha
    exact ⟨s, hs, hcurrent, ha⟩

end Rendezvous
