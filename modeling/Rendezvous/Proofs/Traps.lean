import Rendezvous.Proofs.Boxes

/-! # Traps

A request that goes through a trap frame comes out of it with its counts cut to what a register holds. The kernel makes
no difference between a timeout that long and any longer one, so it serves a trap as it serves the request itself. -/

namespace Rendezvous

/-- A count as it comes back out of a register. -/
def heldCount (n : UInt32) : UInt32 := UInt32.ofNat (min n.toNat 2147483647)

namespace Request

/-- The request as it comes back out of a trap frame. -/
def held : Request → Request
  | .receive filter timeout => .receive filter (timeout.map heldCount)
  | .tick ms => .tick (heldCount ms)
  | r => r

end Request

/-! ### Registers -/

theorem toNat_heldCount (n : UInt32) : (heldCount n).toNat = min n.toNat 2147483647 :=
  UInt32.toNat_ofNat_of_lt' (by
    show min n.toNat 2147483647 < 4294967296
    omega)

theorem heldCount_of_le {n : UInt32} (h : n.toNat ≤ 2147483647) : heldCount n = n := by
  rw [heldCount, Nat.min_eq_left h, UInt32.ofNat_toNat]

theorem toInt_registerOf (n : UInt32) : (registerOf n).toInt = (min n.toNat 2147483647 : Nat) :=
  Int32.toInt_ofNat_of_lt (by omega)

theorem countOf?_registerOf (n : UInt32) : countOf? (registerOf n) = some (heldCount n) := by
  rw [countOf?, toInt_registerOf]
  rfl

/-- A register that holds -1 holds no count. -/
theorem countOf?_timeout (timeout : Option UInt32) :
    countOf? (timeout.elim (-1) registerOf) = timeout.map heldCount := by
  cases timeout with
  | none => rfl
  | some ms => exact countOf?_registerOf ms

theorem MessageType.ofRegister?_toRegister (ty : MessageType) : ofRegister? ty.toRegister = some ty := by
  unfold toRegister
  split
  · rename_i hany
    rw [hany]
    rfl
  · have hlt := ty.val.toNat_lt
    have hint : (Int32.ofNat ty.val.toNat).toInt = (ty.val.toNat : Nat) := Int32.toInt_ofNat_of_lt (by omega)
    have hne : Int32.ofNat ty.val.toNat ≠ -1 := fun heq => by
      rw [heq] at hint
      have hneg : (-1 : Int32).toInt = -1 := rfl
      omega
    rw [ofRegister?, if_neg hne, hint]
    show (if ty.val.toNat < 65536 then _ else _) = _
    rw [if_pos hlt, UInt16.ofNat_toNat]

/-- The code of an operation is looked up as that operation. -/
theorem Operation.ofCode?_code (op : Operation) : ofCode? op.code = some op := by
  cases op <;> rfl

/-- A trap frame carries any request, but for counts that are too large for a register. -/
theorem Request.decode_encode (r : Request) : r.encode.decode = .ok r.held := by
  cases r with
  | receive filter timeout =>
    simp only [encode, TrapFrame.decode, Operation.ofCode?_code, MessageType.ofRegister?_toRegister, countOf?_timeout,
      held]
  | tick ms => simp only [encode, TrapFrame.decode, Operation.ofCode?_code, countOf?_registerOf, held]
  | yield | send _ _ | sendRec _ _ | exit | dump => rfl

/-! ### Requests with counts that were cut -/

/-- The timeouts stop at the same count as a register does. -/
theorem saturate_heldCount (ms : UInt32) : saturate (heldCount ms).toNat = saturate ms.toNat := by
  rw [toNat_heldCount]
  simp only [saturate, Limits.millis]
  omega

theorem map_heldCount_eq_zero {timeout : Option UInt32} : timeout.map heldCount = some 0 ↔ timeout = some 0 := by
  have hzero : ∀ ms, heldCount ms = 0 ↔ ms = 0 := fun ms => by
    rw [← UInt32.toNat_inj, ← UInt32.toNat_inj, toNat_heldCount]
    show min ms.toNat 2147483647 = 0 ↔ ms.toNat = 0
    omega
  cases timeout with
  | none => simp
  | some ms => simp [hzero]

theorem Timeouts.set_heldCount (r : Timeouts) (t : Table) (p : Pid) (ms : UInt32) :
    r.set t p (heldCount ms) = r.set t p ms := by
  unfold Timeouts.set
  rw [saturate_heldCount]

namespace Kernel

theorem setTimeout_held (k : Kernel) (p : Pid) (timeout : Option UInt32) :
    k.setTimeout p (timeout.map heldCount) = k.setTimeout p timeout := by
  cases timeout with
  | none => rfl
  | some ms =>
    simp only [Option.map_some, setTimeout, Timeouts.set_heldCount]

theorem receive_held (k : Kernel) (filter : MessageType) (timeout : Option UInt32) :
    k.receive filter (timeout.map heldCount) = k.receive filter timeout := by
  have hblock : ∀ k : Kernel, k.block filter (timeout.map heldCount) = k.block filter timeout := fun k => by
    unfold block
    simp only [setTimeout_held]
  unfold receive beginReceive
  simp only [hblock, map_heldCount_eq_zero]

/-- The kernel does the same for a request and for what a trap frame makes of it. -/
theorem perform_held (k : Kernel) {r : Request} (hr : ∀ ms, r = .tick ms → ms.toNat ≤ 2147483647) :
    k.perform r.held = k.perform r := by
  cases r with
  | receive filter timeout => exact k.receive_held filter timeout
  | tick ms => rw [Request.held, heldCount_of_le (hr ms rfl)]
  | yield | send _ _ | sendRec _ _ | exit | dump => rfl

/-! ### Traps -/

end Kernel

/-- A guard word is looked up in a stack that is there. -/
theorem Table.stackIntact_eq_ok {t : Table} {p : Pid} {intact : Bool} : t.stackIntact p = .ok intact ↔
    ∃ d, t.get? p = some d ∧ decide ((t.arena.slice d.stack).head? = some blank) = intact := by
  unfold stackIntact stack fetch
  cases t.get? p with
  | none => simp [Except.map]
  | some d => simp [Except.map]

namespace Kernel

variable {k : Kernel}

/-- The context of a process is no part of its stack. -/
theorem saveContext_intact (h : k.table.stackIntact k.current = .ok true) (psp : Word) :
    ∃ k', k.saveContext psp = pure k' ∧ k'.current = k.current ∧ k'.table.stackIntact k'.current = .ok true := by
  obtain ⟨d, hd, hguard⟩ := Table.stackIntact_eq_ok.mp h
  obtain ⟨d', hd'⟩ : ∃ d', d' = { d with context := Arena.locate psp } := ⟨_, rfl⟩
  have hput : (k.table.put k.current d').get? k.current = some d' :=
    Table.get?_put_self d' (List.getElem?_eq_some_iff.mp hd).1
  refine ⟨{ k with table := k.table.put k.current d' }, ?_, rfl, Table.stackIntact_eq_ok.mpr ⟨d', hput, ?_⟩⟩
  · rw [saveContext, amend, Table.update_ok hd, hd']
    rfl
  · rw [hd']
    exact hguard

/-- A trap of a process whose guard word is intact is a request with its counts cut. -/
theorem trap_eq_serve (h : k.table.stackIntact k.current = .ok true) (psp : Word) (r : Request) :
    ∃ k', k.saveContext psp = pure k' ∧ k'.current = k.current ∧ k.trap psp r.encode = k'.serve r.held := by
  obtain ⟨k', hsave, hcurrent, hguard⟩ := saveContext_intact h psp
  have hopen : k.openTrap psp r.encode = pure (k', r.held) := by
    rw [openTrap, hsave, pure_bind]
    show (Traced.lift (k'.table.stackIntact k'.current) >>= _) = _
    rw [Traced.lift_bind hguard, Request.decode_encode]
    rfl
  refine ⟨k', hsave, hcurrent, ?_⟩
  rw [trap, hopen, pure_bind]

/-- What a kernel does for a request, but for the record of the request itself. -/
theorem serve_held (k : Kernel) {r : Request} (hr : ∀ ms, r = .tick ms → ms.toNat ≤ 2147483647) :
    (k.serve r.held).outcome = (k.serve r).outcome ∧ ∃ es, (k.serve r.held).events = .requested k.current r.held :: es ∧
      (k.serve r).events = .requested k.current r :: es := by
  unfold serve note
  simp only [perform_held _ hr]
  exact ⟨rfl, _, rfl, rfl⟩

end Kernel

/-- The trap path agrees with the typed one: a trap that carries a request leads to what keeping the stack pointer and
serving the request leads to, or halts on the same fault, and what happens on the way is the same but for the record of
the request. Only the guard word has to be intact, and a tick not too long for a register. -/
theorem trap_agrees_with_request (k : Kernel) (psp : Word) (r : Request)
    (guard : k.table.stackIntact k.current = .ok true) (short : ∀ ms, r = .tick ms → ms.toNat ≤ 2147483647) :
    (k.trap psp r.encode).outcome = (k.saveContext psp >>= fun k => k.serve r).outcome ∧
      ∃ es, (k.trap psp r.encode).events = .requested k.current r.held :: es ∧
        (k.saveContext psp >>= fun k => k.serve r).events = .requested k.current r :: es := by
  obtain ⟨k', hsave, hcurrent, htrap⟩ := k.trap_eq_serve guard psp r
  obtain ⟨houtcome, es, hheld, hevents⟩ := k'.serve_held short
  have hserve : (k.saveContext psp >>= fun k => k.serve r) = k'.serve r := by
    rw [hsave]
    rfl
  rw [htrap, hserve, ← hcurrent]
  exact ⟨houtcome, es, hheld, hevents⟩

/-- A receive with a timeout that no register holds. -/
def longWait : Request := .receive .any (some 4294967295)

/-- By a trap, too, the process waits, and the other one runs. -/
theorem trap_agrees_with_request_exchange :
    (exchange.2.trap 0 longWait.encode).outcome = (exchange.2.saveContext 0 >>= fun k => k.serve longWait).outcome ∧
      (exchange.2.trap 0 longWait.encode).outcome.toOption.map (·.2.current) = some ⟨1⟩ ∧
      longWait.held = .receive .any (some 2147483647) :=
  ⟨(trap_agrees_with_request exchange.2 0 longWait (by decide +kernel) nofun).1, by decide +kernel, by decide⟩

end Rendezvous
