import Rendezvous.Proofs.Slots

/-! # The boxes of a running kernel

What every process of a kernel does with its slot, and how each step of a run changes it. -/

namespace Rendezvous

/-- What a process does with its slot. -/
def Descriptor.box (d : Descriptor) : Box :=
  match d.state, d.link, d.slot with
  | .sending, some (.waiting dest), some msg => .offering dest msg false
  | .sendRec, some (.waiting dest), some msg => .offering dest msg true
  | .receiving, _, _ => .wanting
  | _, _, slot => .keeping slot

/-- A box that fits the slot, the state and the waiting list of a process is its own. -/
theorem Descriptor.box_eq_of_suits {d : Descriptor} {box : Box} (hslot : box.slot = d.slot)
    (hsuits : box.Suits (some d.state))
    (hlink : ∀ dest msg asks, box = .offering dest msg asks → d.link = some (.waiting dest)) : d.box = box := by
  unfold Descriptor.box
  cases box with
  | offering dest msg asks =>
    have hstate : d.state = if asks then .sendRec else .sending := Option.some_inj.mp hsuits
    rw [hstate, hlink dest msg asks rfl, ← hslot]
    cases asks <;> rfl
  | wanting =>
    have hstate : d.state = .receiving := Option.some_inj.mp hsuits
    rw [hstate]
  | keeping slot =>
    obtain ⟨h₁, h₂, h₃⟩ := hsuits
    rw [show slot = d.slot from hslot]
    split
    · rename_i hs _ _
      exact absurd (congrArg some hs) h₁
    · rename_i hs _ _
      exact absurd (congrArg some hs) h₂
    · rename_i hs
      exact absurd (congrArg some hs) h₃
    · rfl

/-- What the processes of a kernel do with their slots. -/
def Kernel.box (k : Kernel) (p : Pid) : Box := ((k.process? p).map Descriptor.box).getD (.keeping none)

namespace Step

/-- The boxes after the current process has done its part of the call and before the kernel does the rest. -/
def opening (s : Step) : Boxes :=
  Function.update s.before.box s.before.current (s.call.opens (s.before.box s.before.current))

/-- The request of the current process that the call carries, if there is one. -/
def request? (s : Step) : Option Request := s.call.request?

end Step

/-! ### What is checked before a message is sent -/

/-- The destination of a message exists and is alive, and no request is a reply. -/
def Request.Checked (t : Table) : Request → Prop
  | .send dest _ => ∃ p, t.lookup dest = .ok p
  | .sendRec dest msg => (∃ p, t.lookup dest = .ok p) ∧ msg.ty ≠ .reply
  | .yield | .receive .. | .exit | .dump | .tick _ => True

/-- A change of a descriptor that neither ends its process nor gives it another pid. -/
theorem Table.lookup_put {t : Table} {p : Pid} {d d' : Descriptor} (hp : t.get? p = some d) (hpid : d'.pid = d.pid)
    (hdead : d'.isDead = d.isDead) (dest : Int32) : (t.put p d').lookup dest = t.lookup dest := by
  unfold Table.lookup
  cases hi : dest.toInt.toNat? with
  | none => rfl
  | some i =>
    have hget : ((t.put p d').processes[i]?) = if p.index = i then some d' else t.processes[i]? := by
      show (t.processes.set p.index d')[i]? = _
      rw [List.getElem?_set]
      have hlt : p.index < t.processes.length := (List.getElem?_eq_some_iff.mp hp).1
      by_cases hpi : p.index = i
      · rw [if_pos hpi, if_pos hpi, if_pos hlt]
      · rw [if_neg hpi, if_neg hpi]
    simp only [Option.bind_some, hget]
    by_cases hpi : p.index = i
    · have hold : t.processes[i]? = some d := hpi ▸ hp
      rw [if_pos hpi, hold]
      simp only [hdead, hpid]
    · rw [if_neg hpi]

namespace Kernel

open Traced

variable {k k' : Kernel} {c : Call} {a : Answer}

theorem orHalt_ok {α : Type} {r : Except Fault α} {x : α} (h : (k.orHalt r).outcome = .ok x) : r = .ok x := by
  cases r with
  | ok y => exact congrArg Except.ok (Except.ok.inj h)
  | error f => cases h

theorem findDest_ok {dest : Int32} {p : Pid} (h : (k.findDest dest).outcome = .ok p) : k.table.lookup dest = .ok p :=
  orHalt_ok h

theorem perform_checked {r : Request} (h : (k.perform r).outcome = .ok k') : r.Checked k.table := by
  cases r with
  | send dest msg =>
    obtain ⟨p, hp, -⟩ := bind_eq_ok.mp h
    exact ⟨p, findDest_ok hp⟩
  | sendRec dest msg =>
    obtain ⟨stage, hbegin, -⟩ := bind_eq_ok.mp h
    obtain ⟨p, hp, hrest⟩ := bind_eq_ok.mp hbegin
    refine ⟨⟨p, findDest_ok hp⟩, fun hty => ?_⟩
    rw [if_pos hty] at hrest
    cases hrest
  | _ => trivial

theorem serve_checked {r : Request} {out : Word × Kernel} (h : (k.serve r).outcome = .ok out) : r.Checked k.table := by
  obtain ⟨k₁, hnote, h⟩ := bind_eq_ok.mp h
  obtain ⟨k₂, hperform, -⟩ := bind_eq_ok.mp h
  have hchecked := perform_checked hperform
  rwa [← Except.ok.inj hnote] at hchecked

theorem saveContext_lookup {psp : Word} (h : (k.saveContext psp).outcome = .ok k') (dest : Int32) :
    k'.table.lookup dest = k.table.lookup dest := by
  have hmap : (k.table.update k.current fun p => { p with context := Arena.locate psp }).map
      (fun t => ({ k with table := t } : Kernel)) = .ok k' := h
  cases hu : k.table.update k.current fun p => { p with context := Arena.locate psp } with
  | error e =>
    rw [hu] at hmap
    cases hmap
  | ok t =>
    rw [hu] at hmap
    obtain ⟨d, hd, ht⟩ := Table.update_eq_ok.mp hu
    rw [← Except.ok.inj hmap]
    show t.lookup dest = _
    rw [ht]
    refine Table.lookup_put hd ?_ ?_ dest
    · rfl
    · rfl

/-- A trap that is opened was made with an intact guard word, and holds a request. -/
theorem openTrap_ok {psp : Word} {frame : TrapFrame} {r : Request} (h : (k.openTrap psp frame).outcome = .ok (k', r)) :
    (k.saveContext psp).outcome = .ok k' ∧ k'.table.stackIntact k'.current = .ok true ∧ frame.decode = .ok r := by
  obtain ⟨k₁, hsave, h⟩ := bind_eq_ok.mp h
  obtain ⟨intact, hintact, h⟩ := bind_eq_ok.mp h
  cases intact with
  | false => cases h
  | true =>
    obtain ⟨r', hdecode, h⟩ := bind_eq_ok.mp h
    cases h
    exact ⟨hsave, hintact, orHalt_ok hdecode⟩

/-- A call that returns has checked the request that it carries. -/
theorem call_checked (h : (k.call c).outcome = .ok (a, k')) : ∀ r ∈ c.request?, r.Checked k.table := by
  intro r hr
  cases c with
  | serve r' =>
    obtain rfl : r' = r := Option.some_inj.mp hr
    obtain ⟨out, hserve, -⟩ := bind_eq_ok.mp h
    exact serve_checked hserve
  | trap psp frame =>
    obtain ⟨out, htrap, -⟩ := bind_eq_ok.mp h
    obtain ⟨⟨k₁, r'⟩, hopen, hserve⟩ := bind_eq_ok.mp htrap
    obtain ⟨hsave, -, hd⟩ := openTrap_ok hopen
    obtain rfl : r' = r := Option.some_inj.mp ((Call.request?_of_decoded hd psp).symm.trans hr)
    have hchecked := serve_checked hserve
    cases r' with
    | send dest msg => exact hchecked.imp fun p hp => saveContext_lookup hsave dest ▸ hp
    | sendRec dest msg => exact ⟨hchecked.1.imp fun p hp => saveContext_lookup hsave dest ▸ hp, hchecked.2⟩
    | _ => trivial
  | _ => cases hr

end Kernel

/-! ### Boxes along a run -/

/-- The kernel rests, and its processes do with their slots what its boxes tell. -/
def Kernel.Boxed (k : Kernel) : Prop := ∃ P, k.Shows P ∧ P.Rests ∧ P.Mail [] k.box

namespace Kernel

variable {k k' : Kernel} {P : Plain} {b : Boxes} {c : Call} {a : Answer}

/-- The boxes of a kernel are the only ones that tell of it. -/
theorem box_eq (h : k.Shows P) (hrest : P.Rests) (hm : P.Mail [] b) : k.box = b := by
  funext p
  have hproc : P.process p = (k.table.get? p).map Descriptor.plain := by rw [h.process]; rfl
  unfold box process?
  cases hd : k.table.get? p with
  | none =>
    rw [hd] at hproc
    exact (hm.absent hproc List.not_mem_nil).symm
  | some d =>
    rw [hd, Option.map_some] at hproc
    have hslot : (b p).slot = d.plain.slot := (hm.slot p).trans (Plain.slot_eq hproc)
    have hsuits := hm.state p List.not_mem_nil
    rw [Plain.read, hproc] at hsuits
    refine Descriptor.box_eq_of_suits hslot hsuits fun dest msg asks hb => ?_
    obtain ⟨e, he, hlink⟩ := (hrest.sound.member _ p).mp (hm.dest p List.not_mem_nil dest msg asks hb)
    rw [hproc] at he
    obtain rfl : d.plain = e := Option.some_inj.mp he
    exact hlink

theorem Boxed.message (h : k.Boxed) (p : Pid) : k.message? p = (k.box p).slot := by
  obtain ⟨P, hk, -, hm⟩ := h
  rw [hm.slot, Plain.slot, hk.process, message?, process?, Table.plain]
  cases k.table.get? p <;> rfl

/-- A process that holds a message out waits for its receiver. -/
theorem of_box_offering {p dest : Pid} {msg : Message} {asks : Bool} (h : k.box p = .offering dest msg asks) :
    ∃ d, k.process? p = some d ∧ (d.state = .sending ∨ d.state = .sendRec) ∧ d.link = some (.waiting dest) ∧
      d.slot = some msg := by
  unfold box at h
  cases hd : k.process? p with
  | none =>
    rw [hd] at h
    cases h
  | some d =>
    rw [hd] at h
    have hbox : d.box = .offering dest msg asks := h
    refine ⟨d, rfl, ?_⟩
    unfold Descriptor.box at hbox
    split at hbox
    · rename_i hs hl hm
      cases hbox
      exact ⟨Or.inl hs, hl, hm⟩
    · rename_i hs hl hm
      cases hbox
      exact ⟨Or.inr hs, hl, hm⟩
    · cases hbox
    · cases hbox

theorem boot_mail (config : Config) : (Plain.boot config).Mail [] fun _ => .keeping none := by
  have hidle : ∀ p d, (Plain.boot config).process p = some d → d.slot = none ∧ d.state = .idling := fun p d hp => by
    rw [(Plain.boot_process hp).2]
    exact ⟨rfl, rfl⟩
  refine ⟨fun p => ?_, fun p _ => ?_, fun _ _ _ _ _ hb => absurd hb (by simp), fun _ _ _ hb => absurd hb (by simp)⟩
  · cases hp : (Plain.boot config).process p with
    | none => rw [Plain.slot, hp]; rfl
    | some d => rw [Plain.slot_eq hp, (hidle p d hp).1]; rfl
  · cases hp : (Plain.boot config).process p with
    | none =>
      rw [Plain.read, hp]
      exact ⟨by simp, by simp, by simp⟩
    | some d =>
      rw [Plain.read, hp, Option.map_some, (hidle p d hp).2]
      exact ⟨by simp, by simp, by simp⟩

/-- At first all slots are empty. -/
theorem boot_box (config : Config) (p : Pid) : (Kernel.boot config).box p = .keeping none :=
  congrFun (box_eq (.boot config) (Plain.boot_rests config) (boot_mail config)) p

theorem boot_boxed (config : Config) : (Kernel.boot config).Boxed :=
  ⟨_, .boot config, Plain.boot_rests config, (funext (boot_box config) : (Kernel.boot config).box = _) ▸ boot_mail config⟩

/-- A call opens the box of the current process, and its events do the rest. -/
theorem Boxed.call (h : k.Boxed) (hc : c.Admissible k) (hok : (k.call c).outcome = .ok (a, k')) :
    k'.Boxed ∧ Path k.current (Function.update k.box k.current (c.opens (k.box k.current))) (k.call c).events k'.box := by
  obtain ⟨P, hk, hrest, hm⟩ := h
  obtain ⟨lines, hk', hrest', htrace⟩ := hk.call_ok hrest hc.1 hok
  have hcur := hk.current
  have hidle : P.current = .idle → ∀ r ∈ c.request?, r.FitsIdle := fun hi => hc.1.fitsIdle (hcur ▸ hi)
  have hreply : ∀ dest msg, c.request? = some (.sendRec dest msg) → msg.ty ≠ .reply := fun dest msg hr =>
    (call_checked hok _ hr).2
  have hown : ∀ p, c = .takeMessage p → p = P.current := by
    rintro p rfl
    rw [hcur]
    exact hc.2
  obtain ⟨b', ⟨es, hes, hpath⟩, hm'⟩ := hm.after hrest lines hidle hreply hown
  obtain rfl : es = (k.call c).events := List.append_cancel_left (hes.symm.trans htrace)
  have hb := box_eq hk' hrest' hm'
  rw [hcur] at hpath
  exact ⟨⟨_, hk', hrest', hb ▸ hm'⟩, hb ▸ hpath⟩

end Kernel

namespace Run

variable {rule : Kernel → Call → Prop} {config : Config} {steps : List Step} {k : Kernel}

theorem boxed (h : Run Call.Admissible config steps k) : k.Boxed := by
  induction h with
  | boot => exact Kernel.boot_boxed config
  | call _ allowed done ih => exact (ih.call allowed done).1

theorem after_boxed (h : Run Call.Admissible config steps k) {i : Nat} {s : Step} (hs : steps[i]? = some s) :
    s.after.Boxed := (h.upto hs).boxed

/-- The events of every step of a run tell what becomes of the boxes. -/
theorem path (h : Run Call.Admissible config steps k) {i : Nat} {s : Step} (hs : steps[i]? = some s) :
    Path s.before.current s.opening s.events s.after.box :=
  have hstep := h.step hs
  (hstep.1.boxed.call hstep.2.1 hstep.2.2).2

end Run

end Rendezvous
