import Rendezvous.Proofs.Traps

/-! # Trap frames and the requests they carry

The encoder and the decoder of trap frames, seen from both sides: what comes back of a request, which requests frames
stand for, and which frames stand for none. -/

namespace Rendezvous

namespace Request

/-- The counts of a request, which go through a register. -/
def counts : Request → List UInt32
  | .receive _ timeout => timeout.toList
  | .tick ms => [ms]
  | .yield | .send _ _ | .sendRec _ _ | .exit | .dump => []

/-- No count of the request is too large for a register. -/
def FitsRegisters (r : Request) : Prop :=
  ∀ n ∈ r.counts, n.toNat ≤ 2147483647

end Request

namespace TrapFrame

/-- Why a frame carries no request, and the fault that says so. -/
inductive Rejects (f : TrapFrame) : Fault → Prop
  | operation (unknown : 6 < f.op) : f.Rejects (.unknownSyscall f.op)
  | message (sending : f.op = 1 ∨ f.op = 3) (missing : f.message = none) : f.Rejects (.missingMessage f.op)
  | filter (receiving : f.op = 2) (outside : f.r0.toInt < -1 ∨ 65535 < f.r0.toInt) : f.Rejects (.badArgument f.op f.r0)
  | count (ticking : f.op = 6) (negative : f.r0.toInt < 0) : f.Rejects (.badArgument f.op f.r0)

end TrapFrame

/-! ### Registers as operations, counts and filters -/

theorem heldCount_eq_self {n : UInt32} : heldCount n = n ↔ n.toNat ≤ 2147483647 := by
  refine ⟨fun h => ?_, heldCount_of_le⟩
  have hmin := toNat_heldCount n
  rw [h] at hmin
  omega

theorem countOf?_eq_none {r : Int32} : countOf? r = none ↔ r.toInt < 0 := by
  unfold countOf?
  cases r.toInt with
  | ofNat n => simp [Int.toNat?]
  | negSucc n => simp [Int.toNat?, Int.negSucc_lt_zero]

/-- What a register holds as a count is never too large for one. -/
theorem countOf?_le {r : Int32} {n : UInt32} (h : countOf? r = some n) : n.toNat ≤ 2147483647 := by
  have hmax : r.toInt < 2147483648 := r.toInt_lt
  unfold countOf? at h
  obtain ⟨m, hm, rfl⟩ := Option.map_eq_some_iff.mp h
  have hcast : r.toInt = m := by
    cases hr : r.toInt with
    | ofNat i =>
      rw [hr] at hm
      cases hm
      rfl
    | negSucc i =>
      rw [hr] at hm
      cases hm
  rw [UInt32.toNat_ofNat_of_lt' (by show m < 4294967296; omega)]
  omega

theorem MessageType.ofRegister?_eq_none {r : Int32} : ofRegister? r = none ↔ r.toInt < -1 ∨ 65535 < r.toInt := by
  have hany : r = -1 ↔ r.toInt = -1 := Int32.toInt_inj.symm
  unfold ofRegister?
  by_cases hr : r = -1
  · rw [if_pos hr, hany.mp hr]
    simp
  · rw [if_neg hr]
    rw [hany] at hr
    cases hint : r.toInt with
    | ofNat n =>
      simp only [Int.toNat?, Option.bind_some, Int.ofNat_eq_natCast]
      split <;> simp <;> omega
    | negSucc n =>
      simp only [Int.toNat?, Option.bind_none, true_iff]
      omega

namespace Operation

theorem ofCode?_eq_some {code : UInt8} {op : Operation} : ofCode? code = some op ↔ code = op.code := by
  refine ⟨fun h => ?_, fun h => h ▸ op.ofCode?_code⟩
  unfold ofCode? at h
  have hcode := List.find?_some h
  simp only [decide_eq_true_eq] at hcode
  exact hcode.symm

/-- The operations have the codes up to 6. -/
theorem ofCode?_eq_none {c : UInt8} : ofCode? c = none ↔ 6 < c := by
  simp only [ofCode?, all, List.find?_eq_none, List.forall_mem_cons, code, UInt8.lt_iff_toNat_lt, ← UInt8.toNat_inj,
    decide_eq_true_iff, List.not_mem_nil, false_implies, implies_true, and_true, UInt8.reduceToNat]
  omega

end Operation

/-! ### Requests through frames -/

namespace Request

/-- A request comes back as it was exactly when its counts fit registers. -/
theorem held_eq_self {r : Request} : r.held = r ↔ r.FitsRegisters := by
  cases r with
  | receive filter timeout =>
    cases timeout with
    | none => simp [held, FitsRegisters, counts]
    | some ms => simp [held, FitsRegisters, counts, heldCount_eq_self]
  | tick ms => simp [held, FitsRegisters, counts, heldCount_eq_self]
  | yield | send _ _ | sendRec _ _ | exit | dump => simp [held, FitsRegisters, counts]

end Request

namespace TrapFrame

/-- Either a request comes out of a frame, and it fits into one, or there is a reason why none does. -/
theorem fits_or_rejects (f : TrapFrame) : (∃ r, f.decode = .ok r ∧ r.FitsRegisters) ∨ ∃ e, f.Rejects e := by
  cases hop : Operation.ofCode? f.op with
  | none => exact .inr ⟨_, .operation (Operation.ofCode?_eq_none.mp hop)⟩
  | some op =>
    -- What can be rejected beyond the operation depends on which it is.
    have hcode : f.op = op.code := Operation.ofCode?_eq_some.mp hop
    unfold decode
    rw [hop]
    cases op with
    | yield | exit | dump => exact .inl ⟨_, rfl, by simp [Request.FitsRegisters, Request.counts]⟩
    | send =>
      cases hmessage : f.message with
      | none => exact .inr ⟨_, .message (.inl hcode) hmessage⟩
      | some m => exact .inl ⟨_, rfl, by simp [Request.FitsRegisters, Request.counts]⟩
    | sendRec =>
      cases hmessage : f.message with
      | none => exact .inr ⟨_, .message (.inr hcode) hmessage⟩
      | some m => exact .inl ⟨_, rfl, by simp [Request.FitsRegisters, Request.counts]⟩
    | receive =>
      cases hfilter : MessageType.ofRegister? f.r0 with
      | none => exact .inr ⟨_, .filter hcode (MessageType.ofRegister?_eq_none.mp hfilter)⟩
      | some filter => exact .inl ⟨_, rfl, fun n hn => countOf?_le (Option.mem_toList.mp hn)⟩
    | tick =>
      cases hcount : countOf? f.r0 with
      | none => exact .inr ⟨_, .count hcode (countOf?_eq_none.mp hcount)⟩
      | some ms => exact .inl ⟨_, rfl, by simpa [Request.FitsRegisters, Request.counts] using countOf?_le hcount⟩

/-- A frame that is rejected faults as it says. -/
theorem Rejects.decode {f : TrapFrame} {e : Fault} (h : f.Rejects e) : f.decode = .error e := by
  unfold TrapFrame.decode
  cases h with
  | operation unknown => rw [Operation.ofCode?_eq_none.mpr unknown]
  | message sending missing =>
    obtain hop | hop := sending
    · rw [Operation.ofCode?_eq_some.mpr (show f.op = Operation.send.code from hop), missing]
    · rw [Operation.ofCode?_eq_some.mpr (show f.op = Operation.sendRec.code from hop), missing]
  | filter receiving outside =>
    rw [Operation.ofCode?_eq_some.mpr (show f.op = Operation.receive.code from receiving),
      MessageType.ofRegister?_eq_none.mpr outside]
  | count ticking negative =>
    rw [Operation.ofCode?_eq_some.mpr (show f.op = Operation.tick.code from ticking), countOf?_eq_none.mpr negative]

theorem decode_fits {f : TrapFrame} {r : Request} (h : f.decode = .ok r) : r.FitsRegisters := by
  obtain ⟨s, hs, hfits⟩ | ⟨e, hrejects⟩ := f.fits_or_rejects
  · rw [h] at hs
    cases hs
    exact hfits
  · have heq := hrejects.decode
    rw [h] at heq
    cases heq

theorem decode_eq_error {f : TrapFrame} {e : Fault} : f.decode = .error e ↔ f.Rejects e := by
  refine ⟨fun h => ?_, Rejects.decode⟩
  obtain ⟨r, hr, -⟩ | ⟨e', hrejects⟩ := f.fits_or_rejects
  · rw [h] at hr
    cases hr
  · have heq := hrejects.decode
    rw [h] at heq
    cases heq
    exact hrejects

end TrapFrame

/-- Requests and trap frames. Every request comes back from its frame with its counts cut to what a register holds, so
unchanged exactly when they all fit; what a frame carries comes back from its own encoding unchanged; and a frame
carries nothing exactly when its operation is unknown, it is to send without a message, or its filter or its tick is
out of range, which the fault names. -/
theorem requests_through_frames :
    (∀ r : Request, r.encode.decode = .ok r.held ∧ (r.held = r ↔ r.FitsRegisters)) ∧
      (∀ (f : TrapFrame) (r : Request), f.decode = .ok r → r.encode.decode = .ok r) ∧
      ∀ (f : TrapFrame) (e : Fault), f.decode = .error e ↔ f.Rejects e := by
  refine ⟨fun r => ⟨r.decode_encode, Request.held_eq_self⟩, fun f r h => ?_, fun f e => TrapFrame.decode_eq_error⟩
  rw [r.decode_encode, Request.held_eq_self.mpr (TrapFrame.decode_fits h)]

/-- A filter that accepts everything, spelled as a type, and a negative timeout. -/
def openEnded : TrapFrame := { op := 2, r0 := 65535, r2 := -5 }

/-- The other spelling of the same request comes back from its encoding, a negative tick does not decode. -/
theorem requests_through_frames_open_ended :
    openEnded.decode = .ok (.receive .any none) ∧
      (Request.receive .any none).encode.decode = .ok (.receive .any none) ∧
      TrapFrame.decode { op := 6, r0 := -1 } = .error (.badArgument 6 (-1)) :=
  have hdecode : openEnded.decode = .ok (.receive .any none) := by decide
  ⟨hdecode, requests_through_frames.2.1 openEnded _ hdecode,
    (requests_through_frames.2.2 _ _).mpr (.count rfl (by decide))⟩

end Rendezvous
