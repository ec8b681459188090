import Rendezvous.Proofs.Control

/-! # Runs

A run boots a kernel and makes calls, none of which halts it. Every kernel that a run reaches shows as a
plain kernel that rests, and the next call keeps it so or halts on a mistake of its caller. -/

namespace Rendezvous

namespace Call

/-- The request that a call makes of the kernel, if it makes one. -/
def request? : Call → Option Request
  | .serve request => some request
  | .trap _ frame => frame.decode.toOption
  | _ => none

theorem request?_of_decoded {frame : TrapFrame} {r : Request} (h : frame.decode = .ok r) (psp : Word) :
    (Call.trap psp frame).request? = some r := by
  rw [request?, h]
  rfl

theorem request?_of_undecoded {frame : TrapFrame} {f : Fault} (h : frame.decode = .error f) (psp : Word) :
    (Call.trap psp frame).request? = none := by
  rw [request?, h]
  rfl

/-- Whether the callers keep to the rules: there is one launch, requests and switches of context come after
    it, and the idle process neither blocks nor sets anything for itself. -/
def Proper (k : Kernel) (c : Call) : Prop :=
  match c with
  | .launch => k.running = false
  | .connect _ | .setPriority _ => k.running = true → k.current ≠ .idle
  | .serve _ | .trap .. => k.running = true ∧ (k.current = .idle → ∀ r ∈ c.request?, r.FitsIdle)
  | .preempt _ => k.running = true
  | .start .. | .interrupt _ | .interruptRequest _ | .takeMessage _ | .pokeStack .. => True

theorem Proper.fitsIdle {k : Kernel} {c : Call} (h : c.Proper k) (hidle : k.current = .idle) :
    ∀ r ∈ c.request?, r.FitsIdle := by
  cases c with
  | serve _ | trap _ _ => exact h.2 hidle
  | _ =>
    intro r hr
    cases hr

/-- A request is made of a system that was launched. -/
theorem Proper.running {k : Kernel} {c : Call} (h : c.Proper k) (hr : c.request?.isSome) : k.running = true := by
  cases c with
  | serve _ | trap _ _ => exact h.1
  | _ => cases hr

/-- Messages are taken by the process that runs, out of its own slot. -/
def TakesOwn (k : Kernel) : Call → Prop
  | .takeMessage pid => pid = k.current
  | _ => True

/-- What those who use the kernel may do. -/
def Admissible (k : Kernel) (c : Call) : Prop := c.Proper k ∧ c.TakesOwn k

instance : DecidablePred Request.FitsIdle
  | .yield | .dump | .tick _ | .exit => .isTrue trivial
  | .send .. | .receive .. | .sendRec .. => .isFalse id

instance (k : Kernel) : (c : Call) → Decidable (c.Proper k)
  | .launch => inferInstanceAs (Decidable (k.running = false))
  | .connect _ | .setPriority _ => inferInstanceAs (Decidable (k.running = true → k.current ≠ .idle))
  | .serve request => inferInstanceAs (Decidable (k.running = true ∧
      (k.current = .idle → ∀ r ∈ request? (.serve request), r.FitsIdle)))
  | .trap psp frame => inferInstanceAs (Decidable (k.running = true ∧
      (k.current = .idle → ∀ r ∈ request? (.trap psp frame), r.FitsIdle)))
  | .preempt _ => inferInstanceAs (Decidable (k.running = true))
  | .start .. | .interrupt _ | .interruptRequest _ | .takeMessage _ | .pokeStack .. => .isTrue trivial

instance (k : Kernel) : (c : Call) → Decidable (c.TakesOwn k)
  | .takeMessage pid => inferInstanceAs (Decidable (pid = k.current))
  | .start .. | .launch | .connect _ | .setPriority _ | .serve _ | .trap .. | .preempt _ | .interrupt _
  | .interruptRequest _ | .pokeStack .. => .isTrue trivial

instance (k : Kernel) (c : Call) : Decidable (c.Admissible k) := inferInstanceAs (Decidable (_ ∧ _))

end Call

/-- One call of a run. -/
structure Step where
  before : Kernel
  call : Call
  answer : Answer
  after : Kernel

namespace Step

/-- What happened during the call. -/
def events (s : Step) : List Event := (s.before.call s.call).events

end Step

/-- The calls from the boot on, and the kernel after them; each keeps to the rule and halts nothing. -/
inductive Run (rule : Kernel → Call → Prop) (config : Config) : List Step → Kernel → Prop
  | boot : Run rule config [] (.boot config)
  | call {steps : List Step} {k k' : Kernel} {c : Call} {answer : Answer} (before : Run rule config steps k)
      (allowed : rule k c) (done : (k.call c).outcome = .ok (answer, k')) :
      Run rule config (steps ++ [⟨k, c, answer, k'⟩]) k'

/-- After step `i` and up to step `j`, the process `p` does not run. -/
def Aside (steps : List Step) (p : Pid) (i j : Nat) : Prop :=
  ∀ t u, i < t → t ≤ j → steps[t]? = some u → u.before.current ≠ p

theorem Aside.mono {steps : List Step} {p : Pid} {i j t : Nat} (h : Aside steps p i j) (htj : t ≤ j) :
    Aside steps p i t :=
  fun u v hiu hut => h u v hiu (Nat.le_trans hut htj)

/-- The kernel holds what a plain kernel at rest tells. -/
def Kernel.Resting (k : Kernel) : Prop := ∃ P, k.Shows P ∧ P.Rests

/-- The answer of a call, put beside the kernel that the call leads to. -/
theorem Traced.Ends.answer {α : Type} {x : Traced α} {f : α → Traced (Answer × Kernel)} {P Q : Plain}
    {out : Kernel → α} {a : Answer} (h : x.Ends P out Q) (hf : ∀ k, f (out k) = pure (a, k)) :
    (x >>= f).Ends P (a, ·) Q :=
  h.bind fun k₁ h₁ hr => (Leads.silent (hf k₁) rfl h₁).ends hr

/-- A word that is written to a stack is written to the table. -/
theorem Kernel.pokeStack_eq_ok {k k' : Kernel} {p : Pid} {i : Nat} {value : Word} :
    (k.pokeStack p i value).outcome = .ok k' ↔
      ∃ t, k.table.pokeStack p i value = .ok t ∧ k' = { k with table := t } := by
  have houtcome : (k.pokeStack p i value).outcome =
      (k.table.pokeStack p i value).map fun t => { k with table := t } := rfl
  rw [houtcome]
  cases k.table.pokeStack p i value <;> simp [Except.map, eq_comm]

namespace Kernel.Shows

open Traced Plain

variable {k k' : Kernel} {P : Plain} {c : Call} {a : Answer}

theorem interruptRequest (h : k.Shows P) (hrest : P.Rests) (irq : Int32) : ∃ value,
    (k.interruptRequest irq).Ends P (value, ·) (P.after [] (.interruptRequest irq)) := by
  unfold Kernel.interruptRequest
  cases hl : k.lines.handler irq with
  | error f =>
    have hf : f = .unexpectedInterrupt irq := by
      unfold InterruptLines.handler at hl
      split at hl <;> cases hl
      rfl
    exact ⟨false, hf ▸ halt_ends (e := .unexpectedInterrupt irq) trivial _⟩
  | ok pid =>
    rw [after_of_handler (h.lines.symm ▸ hl)]
    exact ⟨_, h.interrupt hrest pid⟩

/-- A word written to a stack; there may be no such word. -/
theorem pokeStack (h : k.Shows P) {p : Pid} {i : Nat} {value : Word} (hok : (k.pokeStack p i value).outcome = .ok k') :
    k'.Shows (P.pokeStack p i value) := by
  obtain ⟨t, ht, rfl⟩ := pokeStack_eq_ok.mp hok
  obtain ⟨d, hp, -, rfl⟩ := Table.pokeStack_eq_ok.mp ht
  have harena : P.arena = k.table.arena := by rw [h.1]; rfl
  have hbase : (P.process p).map (·.stack.base) = some d.stack.base := by
    rw [h.process, Table.plain_eq_some hp]
    rfl
  rw [Plain.pokeStack, hbase, harena]
  exact h.of_arena _

/-- A call ends in what its plain counterpart tells, or halts on a mistake of its caller. Only the stack
    that a port writes to may be too small. -/
theorem call (h : k.Shows P) (hrest : P.Rests) (hc : c.Proper k) (hport : ∀ p i value, c ≠ .pokeStack p i value) :
    ∃ (lines : List String) (answer : Answer), (k.call c).Ends P (answer, ·) (P.after (lines.map .dumped) c) := by
  have hnone : ∀ {answer : Answer}, (k.call c).Ends P (answer, ·) (P.after [] c) → ∃ (lines : List String) (answer : Answer),
      (k.call c).Ends P (answer, ·) (P.after (lines.map .dumped) c) := fun hends => ⟨[], _, hends⟩
  have hfits : P.current = .idle → ∀ r ∈ c.request?, r.FitsIdle := fun hcur => hc.fitsIdle (h.current ▸ hcur)
  cases c with
  | start name size entry arg => exact hnone ((h.start hrest name size entry arg).answer fun _ => rfl)
  | launch =>
    have hr : P.running = false := h.running.trans hc
    exact hnone (((h.launch hrest hr).ends (hrest.launch hr)).answer fun _ => rfl)
  | connect irq =>
    exact hnone ((h.connect hrest (h.running.symm ▸ h.current.symm ▸ hc) irq).answer fun _ => rfl)
  | setPriority level =>
    exact hnone ((h.setPriority hrest (h.running.symm ▸ h.current.symm ▸ hc) level).answer fun _ => rfl)
  | serve request =>
    obtain ⟨lines, hends⟩ := h.serve hrest (h.running.trans hc.1) request fun hcur => hfits hcur _ rfl
    exact ⟨lines, _, hends.answer fun _ => rfl⟩
  | trap psp frame =>
    obtain ⟨lines, addr, hends⟩ := h.trap hrest (h.running.trans hc.1) psp frame fun hcur r hr =>
      hfits hcur r (Call.request?_of_decoded hr psp)
    exact ⟨lines, _, hends.answer fun _ => rfl⟩
  | preempt psp =>
    have hr : P.running = true := h.running.trans hc
    exact hnone (((h.preempt hrest hr psp).ends (hrest.preempt hr psp)).answer fun _ => rfl)
  | interrupt pid => exact hnone ((h.interrupt hrest pid).answer fun _ => rfl)
  | interruptRequest irq =>
    obtain ⟨value, hends⟩ := h.interruptRequest hrest irq
    exact hnone (hends.answer fun _ => rfl)
  | takeMessage pid => exact hnone (((h.takeMessage pid).ends (hrest.slot pid none)).answer fun _ => rfl)
  | pokeStack pid i value => exact absurd rfl (hport pid i value)

/-- A call that returns leads to what its plain counterpart tells. -/
theorem call_ok (h : k.Shows P) (hrest : P.Rests) (hc : c.Proper k) (hok : (k.call c).outcome = .ok (a, k')) :
    ∃ lines : List String, k'.Shows (P.after (lines.map .dumped) c) ∧ (P.after (lines.map .dumped) c).Rests ∧
      (P.after (lines.map .dumped) c).trace = P.trace ++ (k.call c).events := by
  by_cases hport : ∃ p i value, c = .pokeStack p i value
  · obtain ⟨p, i, value, rfl⟩ := hport
    have hpoke : (k.pokeStack p i value).outcome = .ok k' := by
      obtain ⟨k₁, hk₁, hpure⟩ := bind_eq_ok.mp hok
      cases hpure
      exact hk₁
    have hevents : (k.call (.pokeStack p i value)).events = [] := events_bind_ok hpoke _
    exact ⟨[], h.pokeStack hpoke, hrest.poked _, by rw [hevents, List.append_nil]; rfl⟩
  · obtain ⟨lines, answer, ⟨⟨k₁, hok₁, htrace, hk₁⟩, hq⟩ | ⟨f, -, hstop⟩⟩ := h.call hrest hc fun p i value hp =>
      hport ⟨p, i, value, hp⟩
    · obtain ⟨rfl, rfl⟩ : answer = a ∧ k₁ = k' := by
        rw [hok] at hok₁
        cases hok₁
        exact ⟨rfl, rfl⟩
      exact ⟨lines, hk₁, hq, htrace⟩
    · rw [hok] at hstop
      cases hstop

end Kernel.Shows

namespace Kernel.Resting

variable {k k' : Kernel} {c : Call} {a : Answer} (h : k.Resting) (hc : c.Proper k)
  (hok : (k.call c).outcome = .ok (a, k'))
include h hc hok

/-- A call that returns leaves a kernel at rest. -/
theorem call : k'.Resting := by
  obtain ⟨P, hk, hrest⟩ := h
  obtain ⟨lines, hk', hrest', -⟩ := hk.call_ok hrest hc hok
  exact ⟨_, hk', hrest'⟩

/-- A call that returns takes no process away and stops no system that was launched. -/
theorem grows : k.processCount ≤ k'.processCount ∧ (k.running = true → k'.running = true) ∧ k'.config = k.config := by
  obtain ⟨P, hk, hrest⟩ := h
  obtain ⟨lines, hk', -⟩ := hk.call_ok hrest hc hok
  obtain ⟨hsize, hrunning, hconfig⟩ := P.after_grows (lines.map .dumped) c
  rw [hk.size, hk'.size] at hsize
  rw [hk.running, hk'.running] at hrunning
  rw [hk.config, hk'.config] at hconfig
  exact ⟨hsize, hrunning, hconfig⟩

end Kernel.Resting

namespace Run

variable {rule rule' : Kernel → Call → Prop} {config : Config} {steps : List Step} {k : Kernel}

theorem mono (h : Run rule config steps k) (hrule : ∀ k c, rule k c → rule' k c) : Run rule' config steps k := by
  induction h with
  | boot => exact .boot
  | call _ allowed done ih => exact .call ih (hrule _ _ allowed) done

/-- Every kernel that a run reaches rests. -/
theorem resting (h : Run Call.Proper config steps k) : k.Resting := by
  induction h with
  | boot => exact ⟨_, .boot config, Plain.boot_rests config⟩
  | call _ allowed done ih => exact ih.call allowed done

/-- Every stack of a kernel that a run reaches is a part of the arena with room for a guard word. -/
theorem stack_fits (h : Run Call.Proper config steps k) {p : Pid} {d : Descriptor} (hp : k.table.get? p = some d) :
    0 < d.stack.words ∧ d.stack.base + d.stack.words ≤ Limits.arenaWords := by
  obtain ⟨P, hk, hrest⟩ := h.resting
  have hfits := hrest.sound.fits p d.plain (hk.process_eq hp)
  exact ⟨hfits.words, hfits.stack⟩

theorem config_eq (h : Run Call.Proper config steps k) : k.config = config := by
  induction h with
  | boot => rfl
  | call before allowed done ih => exact (before.resting.grows allowed done).2.2.trans ih

theorem proper (h : Run Call.Admissible config steps k) : Run Call.Proper config steps k := h.mono fun _ _ hc => hc.1

/-- A run ends where its last step does. -/
theorem last (h : Run rule config steps k) : k = (steps.getLast?.map (·.after)).getD (.boot config) := by
  cases h with
  | boot => rfl
  | call _ _ _ => simp

/-- Where a run ends. -/
theorem ends (h : Run rule config steps k) : steps = [] ∧ k = .boot config ∨
    ∃ j u, steps.length = j + 1 ∧ steps[j]? = some u ∧ k = u.after := by
  have hlast := h.last
  rcases List.eq_nil_or_concat steps with rfl | ⟨init, u, rfl⟩
  · exact .inl ⟨rfl, hlast⟩
  · refine .inr ⟨init.length, u, by simp, by simp, ?_⟩
    simpa using hlast

/-- Every step of a run is a call made after the steps before it. -/
theorem step (h : Run rule config steps k) {i : Nat} {s : Step} (hs : steps[i]? = some s) :
    Run rule config (steps.take i) s.before ∧ rule s.before s.call ∧
      (s.before.call s.call).outcome = .ok (s.answer, s.after) := by
  induction h with
  | boot => cases hs
  | @call steps k k' c answer before allowed done ih =>
    rw [List.getElem?_append] at hs
    split at hs
    · rename_i hi
      rw [List.take_append_of_le_length (Nat.le_of_lt hi)]
      exact ih hs
    · rename_i hi
      obtain ⟨hlt, rfl⟩ := List.getElem?_eq_some_iff.mp hs
      have hi' : i = steps.length := by
        rw [List.length_singleton] at hlt
        omega
      simp only [hi', Nat.sub_self, List.getElem_cons_zero, List.take_left']
      exact ⟨before, allowed, done⟩

/-- Every step of a run ends a run. -/
theorem upto (h : Run rule config steps k) {i : Nat} {s : Step} (hs : steps[i]? = some s) :
    Run rule config (steps.take i ++ [s]) s.after := by
  obtain ⟨hrun, hc, hok⟩ := h.step hs
  exact hrun.call hc hok

/-- A step begins where the one before it ends, and the first one in the kernel as it boots. -/
theorem before_eq (h : Run rule config steps k) {i : Nat} {s : Step} (hs : steps[i]? = some s) :
    i = 0 ∧ s.before = .boot config ∨ ∃ j s', i = j + 1 ∧ steps[j]? = some s' ∧ s.before = s'.after := by
  have hlast := (h.step hs).1.last
  have hlt : i < steps.length := (List.getElem?_eq_some_iff.mp hs).1
  cases i with
  | zero => exact Or.inl ⟨rfl, hlast⟩
  | succ j =>
    obtain ⟨s', hj⟩ : ∃ s', steps[j]? = some s' := ⟨_, List.getElem?_eq_getElem (Nat.lt_of_succ_lt hlt)⟩
    rw [List.getLast?_take, if_neg (Nat.succ_ne_zero j), Nat.add_sub_cancel, hj] at hlast
    exact Or.inr ⟨j, s', rfl, hj, hlast⟩

/-- A step that is not the first one begins where the one before it ends. -/
theorem prev (h : Run rule config steps k) {i : Nat} {s : Step} (hs : steps[i + 1]? = some s) :
    ∃ u, steps[i]? = some u ∧ s.before = u.after := by
  rcases h.before_eq hs with ⟨h0, -⟩ | ⟨j, u, hj, hu, hb⟩
  · exact absurd h0 (Nat.succ_ne_zero i)
  · obtain rfl : i = j := Nat.succ.inj hj
    exact ⟨u, hu, hb⟩

/-- A step after step `i` begins where one ends that is not before step `i`. -/
theorem before_of_lt (h : Run rule config steps k) {i j : Nat} {s : Step} (hij : i < j) (hs : steps[j]? = some s) :
    ∃ t u, i ≤ t ∧ j = t + 1 ∧ steps[t]? = some u ∧ s.before = u.after := by
  obtain ⟨t, rfl⟩ := Nat.exists_eq_succ_of_ne_zero (Nat.ne_zero_of_lt hij)
  obtain ⟨u, hu, hb⟩ := h.prev hs
  exact ⟨t, u, Nat.le_of_lt_succ hij, rfl, hu, hb⟩

/-- What holds after a step and is kept by the steps that pass `R` holds as long as all the later steps do. -/
theorem carry {R : Step → Prop} {Q : Nat → Kernel → Prop} (h : Run rule config steps k) {i j : Nat} {s : Step}
    (hs : steps[i]? = some s) (base : Q i s.after)
    (keep : ∀ t u, i ≤ t → steps[t + 1]? = some u → R u → Q t u.before → Q (t + 1) u.after) (hij : i ≤ j) :
    ∀ {s' : Step}, steps[j]? = some s' → (∀ t u, i < t → t ≤ j → steps[t]? = some u → R u) → Q j s'.after := by
  induction hij with
  | refl =>
    intro s' hs' _
    obtain rfl := Option.some_inj.mp (hs.symm.trans hs')
    exact base
  | @step j hij ih =>
    intro s' hs' hpass
    obtain ⟨u, hu, hb⟩ := h.prev hs'
    have hbefore := ih hu fun t v hit htj => hpass t v hit (Nat.le_succ_of_le htj)
    exact keep j s' hij hs' (hpass (j + 1) s' (Nat.lt_succ_of_le hij) (Nat.le_refl _) hs') (hb ▸ hbefore)

/-- No process leaves the table. -/
theorem processCount_mono (h : Run Call.Proper config steps k) {i j : Nat} {s s' : Step} (hs : steps[i]? = some s)
    (hij : i ≤ j) (hs' : steps[j]? = some s') : s.before.processCount ≤ s'.after.processCount := by
  have hstep : ∀ {t : Nat} {u : Step}, steps[t]? = some u → u.before.processCount ≤ u.after.processCount := fun hu =>
    have hu := h.step hu
    (hu.1.resting.grows hu.2.1 hu.2.2).1
  exact h.carry (R := fun _ => True) (Q := fun _ k => s.before.processCount ≤ k.processCount) hs (hstep hs)
    (fun _ _ _ hu _ hle => Nat.le_trans hle (hstep hu)) hij hs' fun _ _ _ _ _ => trivial

end Run

/-! ### Carrying out calls -/

/-- Makes calls, one after the other, that keep to the rule; the steps taken, and the kernel after them. -/
def Kernel.follow (rule : Kernel → Call → Prop) [∀ k c, Decidable (rule k c)] (k : Kernel) :
    List Call → Option (List Step × Kernel)
  | [] => some ([], k)
  | c :: calls =>
    if rule k c then
      match (k.call c).outcome with
      | .ok (answer, k') => (k'.follow rule calls).map fun done => (⟨k, c, answer, k'⟩ :: done.1, done.2)
      | .error _ => none
    else none

theorem Run.follow {rule : Kernel → Call → Prop} [∀ k c, Decidable (rule k c)] {config : Config} {steps : List Step}
    {k : Kernel} (h : Run rule config steps k) {calls : List Call} {done : List Step × Kernel}
    (hf : k.follow rule calls = some done) : Run rule config (steps ++ done.1) done.2 := by
  induction calls generalizing k steps done with
  | nil =>
    obtain rfl := Option.some_inj.mp hf
    rw [List.append_nil]
    exact h
  | cons c calls ih =>
    unfold Kernel.follow at hf
    split at hf
    · rename_i allowed
      split at hf
      · rename_i answer k' hok
        obtain ⟨rest, hrest, rfl⟩ := Option.map_eq_some_iff.mp hf
        have hrun := ih (.call h allowed hok) hrest
        rw [List.append_assoc] at hrun
        exact hrun
      · cases hf
    · cases hf

theorem Run.of_boot {rule : Kernel → Call → Prop} [∀ k c, Decidable (rule k c)] {config : Config} {calls : List Call}
    {done : List Step × Kernel} (hf : (Kernel.boot config).follow rule calls = some done) :
    Run rule config done.1 done.2 := by
  have hrun := Run.boot.follow hf
  rwa [List.nil_append] at hrun

/-- A request, an interrupt, and the reply to the request: the first process asks, the second one answers. -/
def exchangeCalls : List Call :=
  [.start "ask" 0 0 0, .start "answer" 0 0 0, .launch, .serve (.sendRec 2 (.withInt ⟨16⟩ 7)), .interrupt ⟨2⟩,
    .serve (.receive .any none), .takeMessage ⟨2⟩, .serve (.receive .any (some 5)), .preempt 0, .takeMessage ⟨2⟩,
    .serve (.send 1 (.withInt .reply 8)), .serve .yield]

/-- What comes of the request, the interrupt and the reply. -/
def exchange : List Step × Kernel :=
  ((Kernel.boot {}).follow Call.Admissible exchangeCalls).get (by decide +kernel)

theorem exchange_run : Run Call.Admissible {} exchange.1 exchange.2 := Run.of_boot (Option.some_get _).symm

/-! ### Faults

The checks that a kernel makes on itself never fail: whatever the run so far, the next call returns or halts on a
mistake of its caller, and no table, list or stack is left behind on the way. -/

/-- A proper call returns, or a mistake of its caller halts the kernel: neither does a check of the kernel on
    itself fail, nor is an index out of range or a list without an end. -/
theorem halts_only_on_misuse {config : Config} {steps : List Step} {k : Kernel} (h : Run Call.Proper config steps k)
    {c : Call} (hc : c.Proper k) (hport : ∀ p i value, c ≠ .pokeStack p i value) :
    ((∃ answer k', (k.call c).outcome = .ok (answer, k')) ∨
      ∃ f, f.Misuse ∧ (k.call c).outcome = .error (.fault f)) ∧
    ∀ p d, k.table.get? p = some d → 0 < d.stack.words ∧ d.stack.base + d.stack.words ≤ Limits.arenaWords := by
  refine ⟨?_, fun p d hp => h.stack_fits hp⟩
  obtain ⟨P, hk, hrest⟩ := h.resting
  obtain ⟨lines, answer, ⟨⟨k', hok, -⟩, -⟩ | hstop⟩ := hk.call hrest hc hport
  · exact Or.inl ⟨answer, k', hok⟩
  · exact Or.inr hstop

theorem halts_only_on_misuse_exchange :
    Call.Proper exchange.2 (.serve (.send 9 (.new ⟨16⟩))) ∧
    (((∃ answer k', (exchange.2.call (.serve (.send 9 (.new ⟨16⟩)))).outcome = .ok (answer, k')) ∨
      ∃ f, f.Misuse ∧ (exchange.2.call (.serve (.send 9 (.new ⟨16⟩)))).outcome = .error (.fault f)) ∧
    ∀ p d, exchange.2.table.get? p = some d →
      0 < d.stack.words ∧ d.stack.base + d.stack.words ≤ Limits.arenaWords) :=
  ⟨by decide +kernel, halts_only_on_misuse exchange_run.proper (by decide +kernel) (by simp)⟩

end Rendezvous
