import Mathlib.Logic.Function.Basic
import Rendezvous.Event

/-! # Mail

What the processes do with their slots, told without lists and descriptors: a box holds a message out, waits
for one or keeps one. The events of a call move messages between boxes. -/

namespace Rendezvous

/-- What a process does with its slot. -/
inductive Box where
  /-- It holds a message out to `dest`. If it asks, it waits for the reply as soon as the message is taken. -/
  | offering (dest : Pid) (msg : Message) (asks : Bool)
  /-- It waits for a message. -/
  | wanting
  /-- It keeps what it got, as long as it has not taken it out. -/
  | keeping (slot : Option Message)
deriving DecidableEq

namespace Box

/-- The message that is in the slot of a process with this box. -/
def slot : Box → Option Message
  | offering _ msg _ => some msg
  | wanting => none
  | keeping slot => slot

/-- The box of a sender once its message is taken. -/
def relieved (asks : Bool) : Box := if asks then wanting else keeping none

theorem relieved_slot (asks : Bool) : (relieved asks).slot = none := by
  cases asks <;> rfl

theorem relieved_ne_offering (asks : Bool) {dest : Pid} {msg : Message} {asks' : Bool} :
    relieved asks ≠ offering dest msg asks' := by
  cases asks <;> simp [relieved]

theorem relieved_ne_keeping (asks : Bool) {msg : Message} : relieved asks ≠ keeping (some msg) := by
  cases asks <;> simp [relieved]

end Box

/-- The message that an event puts into a slot, with the process whose slot it is. -/
def Event.fill? : Event → Option (Pid × Message)
  | .delivered _ dest msg => some (dest, msg)
  | .notified dest ty => some (dest, .new ty)
  | _ => none

/-- An event that has nothing to do with slots. -/
def Event.Quiet : Event → Prop
  | .delivered .. | .notified .. | .blocked .. => False
  | _ => True

/-- The boxes of all processes. -/
abbrev Boxes := Pid → Box

namespace Boxes

/-- Whether a message can go into the slot of `dest`: it waits for one, or it runs and its slot is empty. -/
def Free (b : Boxes) (runs dest : Pid) : Prop := b dest = .wanting ∨ dest = runs ∧ b dest = .keeping none

/-- A message goes into the slot of `dest`. -/
def fill (b : Boxes) (dest : Pid) (msg : Message) : Boxes := Function.update b dest (.keeping (some msg))

/-- A message goes from the slot of `src` into that of `dest`. -/
def pass (b : Boxes) (src dest : Pid) (msg : Message) (asks : Bool) : Boxes :=
  fill (Function.update b src (.relieved asks)) dest msg

end Boxes

/-- What an event does to the boxes while the process `runs` has the processor. -/
inductive Moves (runs : Pid) (b : Boxes) : Event → Boxes → Prop
  | delivered {src dest : Pid} {msg : Message} {asks : Bool} (offers : b src = .offering dest msg asks) (ne : src ≠ dest)
      (free : b.Free runs dest) :
      Moves runs b (.delivered src dest { msg with sender := src }) (b.pass src dest { msg with sender := src } asks)
  | notified {dest : Pid} {ty : MessageType} (made : ty = .interrupt ∨ ty = .timeout) (free : b.Free runs dest) :
      Moves runs b (.notified dest ty) (b.fill dest (.new ty))
  | blocked {filter : MessageType} (empty : b runs = .keeping none) :
      Moves runs b (.blocked runs filter) (Function.update b runs .wanting)
  | quiet {e : Event} (h : e.Quiet) : Moves runs b e b

/-- What the events of a call do to the boxes, one after the other. -/
inductive Path (runs : Pid) : Boxes → List Event → Boxes → Prop
  | nil {b : Boxes} : Path runs b [] b
  | cons {b b' b'' : Boxes} {e : Event} {es : List Event} (head : Moves runs b e b') (tail : Path runs b' es b'') :
      Path runs b (e :: es) b''

section
variable {runs p src dest : Pid} {b b' b'' : Boxes} {e : Event} {es es' : List Event} {msg : Message} {asks : Bool}

namespace Boxes

theorem pass_src (ne : src ≠ dest) : b.pass src dest msg asks src = .relieved asks := by
  rw [pass, fill, Function.update_of_ne ne, Function.update_self]

theorem not_free_of_some (h : b p = .keeping (some msg)) : ¬b.Free runs p := by
  rintro (hw | ⟨-, hk⟩)
  · cases h.symm.trans hw
  · cases h.symm.trans hk

theorem not_free_of_offering (h : b p = .offering dest msg asks) : ¬b.Free runs p := by
  rintro (hw | ⟨-, hk⟩)
  · cases h.symm.trans hw
  · cases h.symm.trans hk

end Boxes

/-- What an event does to the box of `p`: it fills the slot, takes the message out, empties the way for one,
    or leaves the box alone. -/
inductive Moves.Single (runs : Pid) (b : Boxes) (e : Event) (b' : Boxes) (p : Pid) : Prop
  | same (same : b' p = b p)
  | filled (msg : Message) (fill : e.fill? = some (p, msg)) (free : b.Free runs p) (got : b' p = .keeping (some msg))
  | taken (dest : Pid) (msg : Message) (asks : Bool) (offers : b p = .offering dest msg asks)
      (event : e = .delivered p dest { msg with sender := p }) (relieved : b' p = .relieved asks)
  | opened (runs : p = runs) (empty : b p = .keeping none) (wants : b' p = .wanting)

namespace Moves

theorem single (h : Moves runs b e b') (p : Pid) : Moves.Single runs b e b' p := by
  cases h with
  | @delivered src dest msg asks offers ne free =>
    by_cases hdest : p = dest
    · subst hdest
      exact .filled _ rfl free (Function.update_self ..)
    · by_cases hsrc : p = src
      · subst hsrc
        exact .taken dest msg asks offers rfl ((Function.update_of_ne hdest ..).trans (Function.update_self ..))
      · exact .same ((Function.update_of_ne hdest ..).trans (Function.update_of_ne hsrc ..))
  | @notified dest ty made free =>
    by_cases hdest : p = dest
    · subst hdest
      exact .filled _ rfl free (Function.update_self ..)
    · exact .same (Function.update_of_ne hdest ..)
  | blocked empty =>
    by_cases hr : p = runs
    · subst hr
      exact .opened rfl empty (Function.update_self ..)
    · exact .same (Function.update_of_ne hr ..)
  | quiet _ => exact .same rfl

theorem keeps (h : Moves runs b e b') (hp : b p = .keeping (some msg)) : b' p = .keeping (some msg) := by
  cases h.single p with
  | same same => exact same.trans hp
  | filled _ _ free _ => exact absurd free (Boxes.not_free_of_some hp)
  | taken _ _ _ offers _ _ => cases hp.symm.trans offers
  | opened _ empty _ => cases hp.symm.trans empty

theorem offered (h : Moves runs b e b') (hp : b' p = .offering dest msg asks) : b p = .offering dest msg asks := by
  cases h.single p with
  | same same => exact same.symm.trans hp
  | filled _ _ _ got => cases got.symm.trans hp
  | taken _ _ _ _ _ relieved => exact absurd (relieved.symm.trans hp) (Box.relieved_ne_offering _)
  | opened _ _ wants => cases wants.symm.trans hp

theorem stays (h : Moves runs b e b') (hp : b p = .offering dest msg asks) (he : ∀ d m, e ≠ .delivered p d m) :
    b' p = .offering dest msg asks := by
  cases h.single p with
  | same same => exact same.trans hp
  | filled _ _ free _ => exact absurd free (Boxes.not_free_of_offering hp)
  | taken d m _ _ event _ => exact absurd event (he d _)
  | opened _ empty _ => cases hp.symm.trans empty

theorem kept (h : Moves runs b e b') (hp : b' p = .keeping (some msg)) :
    b p = .keeping (some msg) ∨ e.fill? = some (p, msg) := by
  cases h.single p with
  | same same => exact Or.inl (same.symm.trans hp)
  | filled m fill _ got =>
    obtain rfl : m = msg := Option.some_inj.mp (Box.keeping.inj (got.symm.trans hp))
    exact Or.inr fill
  | taken _ _ _ _ _ relieved => exact absurd (relieved.symm.trans hp) (Box.relieved_ne_keeping _)
  | opened _ _ wants => cases wants.symm.trans hp

/-- A process that neither runs nor waits keeps what it has. -/
theorem rests (h : Moves runs b e b') {slot : Option Message} (hp : b p = .keeping slot) (hne : p ≠ runs) :
    b' p = .keeping slot := by
  cases h.single p with
  | same same => exact same.trans hp
  | filled _ _ free _ =>
    rcases free with hw | ⟨hr, -⟩
    · cases hp.symm.trans hw
    · exact absurd hr hne
  | taken _ _ _ offers _ _ => cases hp.symm.trans offers
  | opened runs' _ _ => exact absurd runs' hne

theorem of_delivered (h : Moves runs b (.delivered src dest msg) b') :
    ∃ m asks, b src = .offering dest m asks ∧ msg = { m with sender := src } ∧ src ≠ dest ∧
      b' = b.pass src dest msg asks := by
  cases h with
  | delivered offers ne free => exact ⟨_, _, offers, rfl, ne, rfl⟩
  | quiet hq => exact absurd hq id

theorem fills (h : Moves runs b e b') (he : e.fill? = some (p, msg)) : b.Free runs p ∧ b' p = .keeping (some msg) := by
  cases h with
  | delivered offers ne free =>
    cases he
    exact ⟨free, Function.update_self ..⟩
  | notified made free =>
    cases he
    exact ⟨free, Function.update_self ..⟩
  | blocked empty => cases he
  | quiet hq => cases e <;> first | exact absurd hq id | cases he

end Moves

namespace Path

theorem append (h : Path runs b es b') (h' : Path runs b' es' b'') : Path runs b (es ++ es') b'' := by
  induction h with
  | nil => exact h'
  | cons head _ ih => exact .cons head (ih h')

theorem split (h : Path runs b (es ++ e :: es') b'') :
    ∃ b₁ b₂, Path runs b es b₁ ∧ Moves runs b₁ e b₂ ∧ Path runs b₂ es' b'' := by
  induction es generalizing b with
  | nil =>
    cases h with
    | cons head tail => exact ⟨_, _, .nil, head, tail⟩
  | cons e' es ih =>
    cases h with
    | cons head tail =>
      obtain ⟨b₁, b₂, h₁, h₂, h₃⟩ := ih tail
      exact ⟨b₁, b₂, .cons head h₁, h₂, h₃⟩

theorem keeps (h : Path runs b es b') (hp : b p = .keeping (some msg)) : b' p = .keeping (some msg) := by
  induction h with
  | nil => exact hp
  | cons head _ ih => exact ih (head.keeps hp)

theorem rests (h : Path runs b es b') {slot : Option Message} (hp : b p = .keeping slot) (hne : p ≠ runs) :
    b' p = .keeping slot := by
  induction h with
  | nil => exact hp
  | cons head _ ih => exact ih (head.rests hp hne)

theorem offered (h : Path runs b es b') (hp : b' p = .offering dest msg asks) : b p = .offering dest msg asks := by
  induction h with
  | nil => exact hp
  | cons head _ ih => exact head.offered (ih hp)

theorem stays (h : Path runs b es b') (hp : b p = .offering dest msg asks) (he : ∀ d m, .delivered p d m ∉ es) :
    b' p = .offering dest msg asks := by
  induction h with
  | nil => exact hp
  | cons head _ ih =>
    exact ih (head.stays hp fun d m hd => he d m (hd ▸ List.mem_cons_self)) fun d m hm =>
      he d m (List.mem_cons_of_mem _ hm)

/-- A process that holds no message out delivers none. -/
theorem not_delivered (h : Path runs b es b') (hp : ∀ d m asks, b p ≠ .offering d m asks) (d : Pid) (m : Message) :
    .delivered p d m ∉ es := by
  intro hm
  obtain ⟨pre, post, rfl⟩ := List.append_of_mem hm
  obtain ⟨b₁, b₂, h₁, h₂, -⟩ := h.split
  obtain ⟨m', asks, hsrc, -⟩ := h₂.of_delivered
  exact hp _ _ _ (h₁.offered hsrc)

theorem kept (h : Path runs b es b') (hp : b' p = .keeping (some msg)) :
    b p = .keeping (some msg) ∨ ∃ e ∈ es, e.fill? = some (p, msg) := by
  induction h with
  | nil => exact Or.inl hp
  | cons head _ ih =>
    rcases ih hp with hb | ⟨e, he, hf⟩
    · exact (head.kept hb).imp_right fun hf => ⟨_, List.mem_cons_self, hf⟩
    · exact Or.inr ⟨e, List.mem_cons_of_mem _ he, hf⟩

theorem filled (h : Path runs b es b') (he : e ∈ es) (hf : e.fill? = some (p, msg)) : b' p = .keeping (some msg) := by
  obtain ⟨pre, post, rfl⟩ := List.append_of_mem he
  obtain ⟨b₁, b₂, -, h₂, h₃⟩ := h.split
  exact h₃.keeps (h₂.fills hf).2

/-- After an event has put a message into a slot, no other event does. -/
theorem not_filled (h : Path runs b es b') (hp : b p = .keeping (some msg)) (he : e ∈ es) (m : Message) :
    e.fill? ≠ some (p, m) := by
  intro hf
  obtain ⟨pre, post, rfl⟩ := List.append_of_mem he
  obtain ⟨b₁, b₂, h₁, h₂, -⟩ := h.split
  exact Boxes.not_free_of_some (h₁.keeps hp) (h₂.fills hf).1

/-- The event that puts a message into a slot is the only one. -/
theorem fills_once (h : Path runs b es b') (he : e ∈ es) (hf : e.fill? = some (p, msg)) :
    ∃ pre post, es = pre ++ e :: post ∧ ∀ e' ∈ pre ++ post, ∀ m, e'.fill? ≠ some (p, m) := by
  obtain ⟨pre, post, rfl⟩ := List.append_of_mem he
  obtain ⟨b₁, b₂, h₁, h₂, h₃⟩ := h.split
  obtain ⟨hfree, hgot⟩ := h₂.fills hf
  refine ⟨pre, post, rfl, fun e' he' m hf' => ?_⟩
  rcases List.mem_append.mp he' with hpre | hpost
  · exact Boxes.not_free_of_some (h₁.filled hpre hf') hfree
  · exact h₃.not_filled hgot hpost m hf'

/-- At most one event puts a message into a slot. -/
theorem fill_unique (h : Path runs b es b') {e' : Event} (he : e ∈ es) (he' : e' ∈ es) {m : Message}
    (hf : e.fill? = some (p, msg)) (hf' : e'.fill? = some (p, m)) : e = e' := by
  induction h with
  | nil => cases he
  | cons head tail ih =>
    rcases List.mem_cons.mp he with rfl | hin
    · rcases List.mem_cons.mp he' with rfl | hin'
      · rfl
      · exact absurd hf' (tail.not_filled (head.fills hf).2 hin' m)
    · rcases List.mem_cons.mp he' with rfl | hin'
      · exact absurd hf (tail.not_filled (head.fills hf').2 hin msg)
      · exact ih hin hin'

/-- A process that holds a message out in the end has delivered none. -/
theorem undelivered (h : Path runs b es b') (hp : b' p = .offering dest msg asks) (d : Pid) (m : Message) :
    .delivered p d m ∉ es := by
  intro hm
  obtain ⟨pre, post, rfl⟩ := List.append_of_mem hm
  obtain ⟨b₁, b₂, -, h₂, h₃⟩ := h.split
  obtain ⟨m', asks', -, -, hne, hpass⟩ := h₂.of_delivered
  have hrelieved : b₂ p = .relieved asks' := hpass ▸ Boxes.pass_src hne
  exact Box.relieved_ne_offering asks' (hrelieved.symm.trans (h₃.offered hp))

/-- The slot of a sender whose message was taken stays empty until a message comes. -/
theorem refilled (h : Path runs b es b') (hp : b p = .relieved asks) :
    (b' p).slot = none ∨ ∃ e ∈ es, ∃ m, e.fill? = some (p, m) ∧ b' p = .keeping (some m) := by
  cases hb : b' p with
  | offering d m asks' => exact absurd (hp.symm.trans (h.offered hb)) (Box.relieved_ne_offering asks)
  | wanting => exact Or.inl rfl
  | keeping slot =>
    cases slot with
    | none => exact Or.inl rfl
    | some m =>
      rcases h.kept hb with hk | ⟨e, he, hf⟩
      · exact absurd (hp.symm.trans hk) (Box.relieved_ne_keeping asks)
      · exact Or.inr ⟨e, he, m, hf, rfl⟩

/-- What a delivery does: it finds the message held out, passes it on with the pid of its sender, and after it the
    sender delivers no other one. -/
theorem delivery (h : Path runs b es b') (he : .delivered src dest msg ∈ es) :
    ∃ m asks, b src = .offering dest m asks ∧ msg = { m with sender := src } ∧ src ≠ dest ∧
      ∃ pre post, es = pre ++ .delivered src dest msg :: post ∧ (∀ d m, .delivered src d m ∉ pre) ∧
        (∀ d m, .delivered src d m ∉ post) ∧ b' dest = .keeping (some msg) ∧ (∀ d m asks, b' src ≠ .offering d m asks) ∧
        ((b' src).slot = none ∨ ∃ e ∈ post, ∃ m, e.fill? = some (src, m) ∧ b' src = .keeping (some m)) := by
  obtain ⟨pre, post, rfl⟩ := List.append_of_mem he
  obtain ⟨b₁, b₂, h₁, h₂, h₃⟩ := h.split
  obtain ⟨m, asks, hoffers, hmsg, hne, hpass⟩ := h₂.of_delivered
  have hrelieved : b₂ src = .relieved asks := hpass ▸ Boxes.pass_src hne
  have hnone : ∀ d m asks', b₂ src ≠ .offering d m asks' := fun d m asks' =>
    hrelieved ▸ Box.relieved_ne_offering asks
  exact ⟨m, asks, h₁.offered hoffers, hmsg, hne, pre, post, rfl, h₁.undelivered hoffers, h₃.not_delivered hnone,
    h₃.keeps (h₂.fills rfl).2, fun d m' asks' ho => hnone _ _ _ (h₃.offered ho), h₃.refilled hrelieved⟩

theorem notified (h : Path runs b es b') {ty : MessageType} (he : .notified dest ty ∈ es) :
    ty = .interrupt ∨ ty = .timeout := by
  obtain ⟨pre, post, rfl⟩ := List.append_of_mem he
  obtain ⟨b₁, b₂, -, h₂, -⟩ := h.split
  cases h₂ with
  | notified made _ => exact made
  | quiet hq => exact absurd hq id

end Path

end

end Rendezvous
