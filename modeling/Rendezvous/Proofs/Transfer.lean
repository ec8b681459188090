import Rendezvous.Proofs.Boxes

/-! # The transfer of messages

A message is delivered at most once, unaltered but for its sender. Until then it stays in the slot of its
sender, and from then on in that of its receiver until the receiver runs. What a process finds in its slot
has come to it in this way, or was made by the kernel. -/

namespace Rendezvous

namespace Step

/-- In this step `src` sends `msg` to `dest`, for a reply or without one. -/
def Posts (s : Step) (src dest : Pid) (msg : Message) : Prop :=
  s.before.current = src ∧ ∃ register, s.before.table.lookup register = .ok dest ∧
    (s.request? = some (.send register msg) ∨ s.request? = some (.sendRec register msg))

/-- In this step a message of `src` goes into the slot of its receiver. -/
def Delivers (s : Step) (src : Pid) : Prop := ∃ dest msg, .delivered src dest msg ∈ s.events

/-- In this step something goes into the slot of `dest`. -/
def Fills (s : Step) (dest : Pid) : Prop := ∃ e ∈ s.events, ∃ msg, e.fill? = some (dest, msg)

end Step

/-- Step `j` delivers what `src` posted in step `i`, after which it posted nothing else. -/
structure Delivery (steps : List Step) (src : Pid) (i j : Nat) : Prop where
  order : i ≤ j
  delivers : ∃ s, steps[j]? = some s ∧ s.Delivers src
  latest : ∀ t s, i < t → t ≤ j → steps[t]? = some s → ∀ dest msg, ¬s.Posts src dest msg

/-! ### What a step does to the boxes -/

theorem Step.opening_of_ne {s : Step} {p : Pid} (hp : p ≠ s.before.current) : s.opening p = s.before.box p :=
  Function.update_of_ne hp ..

theorem Step.opening_self (s : Step) : s.opening s.before.current = s.call.opens (s.before.box s.before.current) :=
  Function.update_self ..

namespace Call

variable {c : Call} {own : Box} {dest : Pid} {msg : Message} {asks : Bool}

/-- A process begins to hold a message out when it posts it. -/
theorem of_opens_offering {slot : Option Message} (h : c.opens (.keeping slot) = .offering dest msg asks) :
    ∃ register, Plain.named register = dest ∧
      (c.request? = some (.send register msg) ∨ c.request? = some (.sendRec register msg)) := by
  cases hr : c.request? with
  | none => rcases opens_of_none hr (.keeping slot) with ho | ho <;> cases ho.symm.trans h
  | some r =>
    rw [opens_of_request hr] at h
    cases r with
    | send register m =>
      cases h
      exact ⟨register, rfl, Or.inl rfl⟩
    | sendRec register m =>
      cases h
      exact ⟨register, rfl, Or.inr rfl⟩
    | _ => cases h

/-- A process that goes on keeping a message has kept it before. -/
theorem of_opens_keeping (h : c.opens own = .keeping (some msg)) : own = .keeping (some msg) := by
  cases hr : c.request? with
  | none =>
    rcases opens_of_none hr own with ho | ho
    · cases ho.symm.trans h
    · exact ho.symm.trans h
  | some r =>
    rw [opens_of_request hr] at h
    cases r with
    | send _ _ | sendRec _ _ | receive _ _ => cases h
    | yield | exit | dump | tick _ => exact h

end Call

/-- A step that begins with a message in a slot finds it there. -/
theorem Step.before_of_opening {s : Step} {p : Pid} {msg : Message} (ho : s.opening p = .keeping (some msg)) :
    s.before.box p = .keeping (some msg) := by
  by_cases hc : p = s.before.current
  · subst hc
    rw [s.opening_self] at ho
    exact Call.of_opens_keeping ho
  · rwa [Step.opening_of_ne hc] at ho

namespace Run

variable {config : Config} {steps : List Step} {k : Kernel} {i j : Nat} {s s' : Step} {p src dest : Pid}
  {msg got : Message} {asks : Bool}

section
variable (h : Run Call.Admissible config steps k)
include h

/-- The process that runs keeps what is in its slot. -/
theorem own (hs : steps[i]? = some s) : ∃ slot, s.before.box s.before.current = .keeping slot := by
  obtain ⟨P, hk, hrest, hm⟩ := (h.step hs).1.boxed
  exact ⟨_, hk.current ▸ hm.current hrest⟩

theorem lookup_named (hs : steps[i]? = some s) {register : Int32} (hl : s.before.table.lookup register = .ok dest) :
    dest = Plain.named register := by
  obtain ⟨P, hk, hrest, -⟩ := (h.step hs).1.boxed
  exact (hk.alive_of_lookup hrest.sound hl).1

/-- A step in which a process posts begins with its message held out. -/
theorem opening_of_posts (hs : steps[i]? = some s) (hp : s.Posts src dest msg) :
    ∃ asks, s.opening src = .offering dest msg asks := by
  obtain ⟨rfl, register, hl, hr | hr⟩ := hp
  · exact ⟨false, by rw [s.opening_self, Call.opens_of_request hr, h.lookup_named hs hl]; rfl⟩
  · exact ⟨true, by rw [s.opening_self, Call.opens_of_request hr, h.lookup_named hs hl]; rfl⟩

/-- A message that is held out was so before the step, or is posted in it. -/
theorem posts_of_opening (hs : steps[i]? = some s) (ho : s.opening src = .offering dest msg asks) :
    (src ≠ s.before.current ∧ s.before.box src = .offering dest msg asks) ∨ s.Posts src dest msg := by
  by_cases hc : src = s.before.current
  · right
    subst hc
    obtain ⟨slot, hown⟩ := h.own hs
    rw [s.opening_self, hown] at ho
    obtain ⟨register, hnamed, hr⟩ := Call.of_opens_offering ho
    have hchecked := Kernel.call_checked (h.step hs).2.2
    have hl : ∃ q, s.before.table.lookup register = .ok q := by
      rcases hr with hr | hr
      · exact hchecked _ hr
      · exact (hchecked _ hr).1
    obtain ⟨q, hq⟩ := hl
    obtain rfl : q = dest := (h.lookup_named hs hq).trans hnamed
    exact ⟨rfl, register, hq, hr⟩
  · rw [Step.opening_of_ne hc] at ho
    exact Or.inl ⟨hc, ho⟩

/-- The first step begins with empty slots. -/
theorem first (hs : steps[0]? = some s) (p : Pid) : s.before.box p = .keeping none := by
  rcases h.before_eq hs with ⟨-, hboot⟩ | ⟨j, _, hj, -⟩
  · rw [hboot, Kernel.boot_box]
  · exact absurd hj.symm (Nat.succ_ne_zero j)

/-! ### What a run does to them -/

/-- A message that was posted is held out until it is delivered, and its sender posts nothing else. -/
theorem held_out (hs : steps[i]? = some s) (hp : s.Posts src dest msg) : ∃ asks, ∀ j, i ≤ j → ∀ s', steps[j]? = some s' →
    (∀ t, i ≤ t → t < j → ¬Delivery steps src i t) → s'.opening src = .offering dest msg asks ∧
      ∀ t u, i < t → t ≤ j → steps[t]? = some u → ∀ d m, ¬u.Posts src d m := by
  obtain ⟨asks, ho⟩ := h.opening_of_posts hs hp
  refine ⟨asks, fun j hij => ?_⟩
  induction hij with
  | refl =>
    intro s' hs' _
    obtain rfl := Option.some_inj.mp (hs.symm.trans hs')
    exact ⟨ho, fun t u hlt hle => absurd hle (Nat.not_le.mpr hlt)⟩
  | @step j hij ih =>
    intro s' hs' hnone
    obtain ⟨u, hu, hb⟩ := h.prev hs'
    obtain ⟨hopen, hposts⟩ := ih u hu fun t hit htj => hnone t hit (Nat.lt_succ_of_lt htj)
    have hafter : u.after.box src = .offering dest msg asks := (h.path hu).stays hopen fun d m hd =>
      hnone j hij (Nat.lt_succ_self j) ⟨hij, ⟨u, hu, d, m, hd⟩, hposts⟩
    rw [← hb] at hafter
    obtain ⟨slot, hown⟩ := h.own hs'
    -- Who holds a message out does not run, so it posts no other.
    have hne : src ≠ s'.before.current := fun hc => by
      rw [hc, hown] at hafter
      cases hafter
    refine ⟨(Step.opening_of_ne hne).trans hafter, fun t v hit htj hv d m hpost => ?_⟩
    rcases Nat.le_succ_iff.mp htj with htj | rfl
    · exact hposts t v hit htj hv d m hpost
    · obtain rfl := Option.some_inj.mp (hs'.symm.trans hv)
      exact hne hpost.1.symm

/-- A process that holds nothing out and posts nothing begins the step so. -/
theorem opening_ne (hs : steps[i]? = some s) (hbox : ∀ d m asks, s.before.box src ≠ .offering d m asks)
    (hposts : ∀ d m, ¬s.Posts src d m) (d : Pid) (m : Message) (asks : Bool) : s.opening src ≠ .offering d m asks := by
  intro ho
  rcases h.posts_of_opening hs ho with ⟨-, ho⟩ | hpost
  · exact hbox d m asks ho
  · exact hposts d m hpost

/-- A process that holds nothing out goes on so until it posts again. -/
theorem nothing_held (hs : steps[j]? = some s) (hbox : ∀ d m asks, s.after.box src ≠ .offering d m asks) {u : Nat}
    (hju : j ≤ u) (hs' : steps[u]? = some s')
    (hposts : ∀ t v, j < t → t ≤ u → steps[t]? = some v → ∀ d m, ¬v.Posts src d m) :
    ∀ d m asks, s'.after.box src ≠ .offering d m asks :=
  h.carry (R := fun v => ∀ d m, ¬v.Posts src d m) (Q := fun _ k => ∀ d m asks, k.box src ≠ .offering d m asks) hs hbox
    (fun _ _ _ hv hpass hb d m asks ho => h.opening_ne hv hb hpass d m asks ((h.path hv).offered ho)) hju hs' hposts

/-- Until then it delivers nothing. -/
theorem nothing_delivered (hs : steps[j]? = some s) (hbox : ∀ d m asks, s.after.box src ≠ .offering d m asks) {u : Nat}
    (hju : j < u) (hs' : steps[u]? = some s')
    (hposts : ∀ t v, j < t → t ≤ u → steps[t]? = some v → ∀ d m, ¬v.Posts src d m) : ¬s'.Delivers src := by
  obtain ⟨t, v, hjt, rfl, hv, hb⟩ := h.before_of_lt hju hs'
  have hheld := h.nothing_held hs hbox hjt hv fun x w hjx hxt => hposts x w hjx (Nat.le_succ_of_le hxt)
  have hopen := h.opening_ne hs' (hb ▸ hheld) (hposts _ s' hju (Nat.le_refl _) hs')
  rintro ⟨d, m, hd⟩
  exact (h.path hs').not_delivered hopen d m hd

/-- A message in the slot of a process stays there until the process runs. -/
theorem kept_until (hs : steps[j]? = some s) (hbox : s.after.box p = .keeping (some got)) {u : Nat} (hju : j ≤ u)
    (hs' : steps[u]? = some s') (hp : Aside steps p j u) : s'.after.box p = .keeping (some got) :=
  h.carry (Q := fun _ k => k.box p = .keeping (some got)) hs hbox
    (fun _ _ _ hv hne hb => (h.path hv).keeps ((Step.opening_of_ne hne.symm).trans hb)) hju hs' hp

/-- A message that is held out was posted, and its sender has posted nothing since. -/
theorem posted (hs : steps[j]? = some s) (ho : s.opening src = .offering dest msg asks) :
    ∃ i s', i ≤ j ∧ steps[i]? = some s' ∧ s'.Posts src dest msg ∧
      ∀ t u, i < t → t ≤ j → steps[t]? = some u → ∀ d m, ¬u.Posts src d m := by
  induction j generalizing s with
  | zero =>
    rcases h.posts_of_opening hs ho with ⟨-, ho⟩ | hpost
    · rw [h.first hs] at ho
      cases ho
    · exact ⟨0, s, Nat.le_refl 0, hs, hpost, fun t u hlt hle => absurd hle (Nat.not_le.mpr hlt)⟩
  | succ j ih =>
    rcases h.posts_of_opening hs ho with ⟨hne, ho⟩ | hpost
    · -- It was held out after the step before already: the induction goes back to the posting.
      obtain ⟨v, hv, hb⟩ := h.prev hs
      rw [hb] at ho
      obtain ⟨i, s', hij, hs', hpost, hnone⟩ := ih hv ((h.path hv).offered ho)
      refine ⟨i, s', Nat.le_succ_of_le hij, hs', hpost, fun t u hit htj hu d m hp => ?_⟩
      rcases Nat.le_succ_iff.mp htj with htj | rfl
      · exact hnone t u hit htj hu d m hp
      · obtain rfl := Option.some_inj.mp (hs.symm.trans hu)
        exact hne hp.1.symm
    · exact ⟨j + 1, s, Nat.le_refl _, hs, hpost, fun t u hlt hle => absurd hle (Nat.not_le.mpr hlt)⟩

/-- A message in a slot was put there by the last step that has put anything there. -/
theorem arrived (hs : steps[j]? = some s) (hbox : s.after.box p = .keeping (some got)) :
    ∃ t s', t ≤ j ∧ steps[t]? = some s' ∧ (∃ e ∈ s'.events, e.fill? = some (p, got)) ∧
      ∀ u v, t < u → u ≤ j → steps[u]? = some v → ¬v.Fills p := by
  induction j generalizing s with
  | zero =>
    rcases (h.path hs).kept hbox with ho | hfill
    · cases (h.first hs p).symm.trans (Step.before_of_opening ho)
    · exact ⟨0, s, Nat.le_refl 0, hs, hfill, fun u v hlt hle => absurd hle (Nat.not_le.mpr hlt)⟩
  | succ j ih =>
    by_cases hf : s.Fills p
    · obtain ⟨e, he, m, hm⟩ := hf
      obtain rfl : m = got := Option.some_inj.mp (Box.keeping.inj (((h.path hs).filled he hm).symm.trans hbox))
      exact ⟨j + 1, s, Nat.le_refl _, hs, ⟨e, he, hm⟩, fun u v hlt hle => absurd hle (Nat.not_le.mpr hlt)⟩
    · rcases (h.path hs).kept hbox with ho | ⟨e, he, hm⟩
      · obtain ⟨v, hv, hb⟩ := h.prev hs
        obtain ⟨t, s', htj, hs', hfill, hnone⟩ := ih hv (hb ▸ Step.before_of_opening ho)
        refine ⟨t, s', Nat.le_succ_of_le htj, hs', hfill, fun u w htu huj hw hfu => ?_⟩
        rcases Nat.le_succ_iff.mp huj with huj | rfl
        · exact hnone u w htu huj hw hfu
        · obtain rfl := Option.some_inj.mp (hs.symm.trans hw)
          exact hf hfu
      · exact absurd ⟨e, he, got, hm⟩ hf

end

end Run

/-! ### Exactly once -/

/-- What becomes of the message that `src` posts to `dest` in step `i`. -/
structure Transfer (steps : List Step) (i : Nat) (src dest : Pid) (msg : Message) : Prop where
  /-- Until the message is delivered, its sender is blocked with it in the waiting list of its receiver. -/
  waits : ∀ j s, i ≤ j → steps[j]? = some s → (∀ t, i ≤ t → t ≤ j → ¬Delivery steps src i t) →
    ∃ d, s.after.process? src = some d ∧ (d.state = .sending ∨ d.state = .sendRec) ∧
      d.link = some (.waiting dest) ∧ d.slot = some msg
  once : ∀ j j', Delivery steps src i j → Delivery steps src i j' → j = j'
  /-- The step that delivers it delivers nothing else of its sender. The message goes into the slot of its receiver
      with its sender's pid, and out of the slot of its sender, which is empty unless a message has come since. -/
  unaltered : ∀ j s, Delivery steps src i j → steps[j]? = some s → ∃ pre post,
    s.events = pre ++ .delivered src dest { msg with sender := src } :: post ∧
      (∀ d m, .delivered src d m ∉ pre) ∧ (∀ d m, .delivered src d m ∉ post) ∧
      s.after.message? dest = some { msg with sender := src } ∧
      (s.after.message? src = none ∨ ∃ e ∈ post, ∃ m, e.fill? = some (src, m) ∧ s.after.message? src = some m)
  /-- It stays in the slot of its receiver until the receiver runs next. -/
  keeps : ∀ j j' s, Delivery steps src i j → j ≤ j' → steps[j']? = some s →
    (∀ t u, j < t → t ≤ j' → steps[t]? = some u → u.before.current ≠ dest) →
      s.after.message? dest = some { msg with sender := src }

/-- What was posted in step `i` is what came last into the slot of `dest`, up to step `j`, and it came as `got`. -/
def Arrived (steps : List Step) (i j : Nat) (dest : Pid) (got : Message) : Prop :=
  ∃ src msg s t, steps[i]? = some s ∧ s.Posts src dest msg ∧ got = { msg with sender := src } ∧
    Delivery steps src i t ∧ t ≤ j ∧ ∀ u v, t < u → u ≤ j → steps[u]? = some v → ¬v.Fills dest

/-- What came last into the slot of `dest`, up to step `j`, was made by the kernel. -/
def Made (steps : List Step) (j : Nat) (dest : Pid) (got : Message) : Prop :=
  ∃ ty s t, (ty = .interrupt ∨ ty = .timeout) ∧ got = .new ty ∧ steps[t]? = some s ∧ .notified dest ty ∈ s.events ∧
    t ≤ j ∧ ∀ u v, t < u → u ≤ j → steps[u]? = some v → ¬v.Fills dest

namespace Run

variable {config : Config} {steps : List Step} {k : Kernel} {i j : Nat} {s s' : Step} {p src dest : Pid}
  {msg got : Message}

section
variable (h : Run Call.Admissible config steps k)
include h

theorem delivery_not_lt {j' : Nat} (hd : Delivery steps src i j) (hd' : Delivery steps src i j') : ¬j < j' := by
  intro hlt
  obtain ⟨s, hs, d, m, he⟩ := hd.delivers
  obtain ⟨s', hs', hdel⟩ := hd'.delivers
  obtain ⟨-, -, -, -, -, -, -, -, -, -, -, hnone, -⟩ := (h.path hs).delivery he
  refine h.nothing_delivered hs hnone hlt hs' (fun t u hjt htj hu => ?_) hdel
  exact hd'.latest t u (Nat.lt_of_le_of_lt hd.order hjt) htj hu

theorem transfer (hs : steps[i]? = some s) (hp : s.Posts src dest msg) : Transfer steps i src dest msg := by
  obtain ⟨asks, hheld⟩ := h.held_out hs hp
  have honce : ∀ j j', Delivery steps src i j → Delivery steps src i j' → j = j' := fun j j' hd hd' =>
    Nat.le_antisymm (Nat.le_of_not_lt (h.delivery_not_lt hd' hd)) (Nat.le_of_not_lt (h.delivery_not_lt hd hd'))
  have hunaltered : ∀ j s, Delivery steps src i j → steps[j]? = some s → ∃ pre post,
      s.events = pre ++ .delivered src dest { msg with sender := src } :: post ∧
        (∀ d m, .delivered src d m ∉ pre) ∧ (∀ d m, .delivered src d m ∉ post) ∧
        s.after.box dest = .keeping (some { msg with sender := src }) ∧
        ((s.after.box src).slot = none ∨ ∃ e ∈ post, ∃ m, e.fill? = some (src, m) ∧
          s.after.box src = .keeping (some m)) := by
    intro j u hd hu
    -- Up to its only delivery the message is held out as it was posted.
    have hopen := (hheld j hd.order u hu fun t _ htj hdt => absurd (honce t j hdt hd) (Nat.ne_of_lt htj)).1
    obtain ⟨v, hv, d, m, he⟩ := hd.delivers
    obtain rfl := Option.some_inj.mp (hu.symm.trans hv)
    obtain ⟨m', asks', ho, rfl, -, pre, post, hevents, hpre, hpost, hdest, -, hsrc⟩ := (h.path hu).delivery he
    obtain ⟨rfl, rfl, -⟩ := Box.offering.inj (ho.symm.trans hopen)
    exact ⟨pre, post, hevents, hpre, hpost, hdest, hsrc⟩
  refine ⟨fun j u hij hu hnone => ?_, honce, fun j u hd hu => ?_, fun j j' u hd hjj hu hcur => ?_⟩
  · obtain ⟨hopen, hposts⟩ := hheld j hij u hu fun t hit htj => hnone t hit (Nat.le_of_lt htj)
    exact Kernel.of_box_offering ((h.path hu).stays hopen fun d m he =>
      hnone j hij (Nat.le_refl j) ⟨hij, ⟨u, hu, d, m, he⟩, hposts⟩)
  · obtain ⟨pre, post, hevents, hpre, hpost, hdest, hsrc⟩ := hunaltered j u hd hu
    have hboxed := h.after_boxed hu
    refine ⟨pre, post, hevents, hpre, hpost, by rw [hboxed.message, hdest]; rfl, ?_⟩
    rw [hboxed.message]
    rcases hsrc with hnone | ⟨e, he, m, hf, hb⟩
    · exact Or.inl hnone
    · exact Or.inr ⟨e, he, m, hf, by rw [hb]; rfl⟩
  · obtain ⟨v, hv, -⟩ := hd.delivers
    obtain ⟨-, -, -, -, -, hdest, -⟩ := hunaltered j v hd hv
    rw [(h.after_boxed hu).message, h.kept_until hv hdest hjj hu hcur]
    rfl

/-- What is in a slot was posted in one step only. -/
theorem arrived_unique {i' : Nat} {got' : Message} (ha : Arrived steps i j dest got) (ha' : Arrived steps i' j dest got') :
    i = i' := by
  have hfills : ∀ {src msg s t i}, steps[i]? = some s → s.Posts src dest msg → Delivery steps src i t →
      ∃ u, steps[t]? = some u ∧ .delivered src dest { msg with sender := src } ∈ u.events := by
    intro src msg s t i hs hp hd
    obtain ⟨u, hu, -⟩ := hd.delivers
    obtain ⟨pre, post, hevents, -⟩ := (h.transfer hs hp).unaltered t u hd hu
    exact ⟨u, hu, hevents ▸ List.mem_append_right _ List.mem_cons_self⟩
  obtain ⟨src, msg, s, t, hs, hp, -, hd, htj, hlast⟩ := ha
  obtain ⟨src', msg', s', t', hs', hp', -, hd', htj', hlast'⟩ := ha'
  obtain ⟨u, hu, he⟩ := hfills hs hp hd
  obtain ⟨u', hu', he'⟩ := hfills hs' hp' hd'
  -- Both were delivered in the step that filled the slot last, which fills it once.
  obtain rfl : t = t' := by
    refine Nat.le_antisymm (Nat.le_of_not_lt fun hlt => ?_) (Nat.le_of_not_lt fun hlt => ?_)
    · exact hlast' t u hlt htj hu ⟨_, he, _, rfl⟩
    · exact hlast t' u' hlt htj' hu' ⟨_, he', _, rfl⟩
  obtain rfl := Option.some_inj.mp (hu.symm.trans hu')
  obtain rfl : src = src' := (Event.delivered.inj ((h.path hu).fill_unique he he' rfl rfl)).1
  -- Either posting is the latest one before the delivery.
  refine Nat.le_antisymm (Nat.le_of_not_lt fun hlt => ?_) (Nat.le_of_not_lt fun hlt => ?_)
  · exact hd'.latest i s hlt hd.order hs dest msg hp
  · exact hd.latest i' s' hlt hd'.order hs' dest msg' hp'

theorem current_exists (hs : steps[i]? = some s) : s.before.current.index < s.before.processCount := by
  obtain ⟨P, hk, hrest⟩ := (h.step hs).1.proper.resting
  exact Table.get?_isSome_iff.mp (hk.current ▸ hk.get_isSome.trans hrest.sound.current)

/-- Where the message comes from that a process finds in its slot when it runs. -/
theorem origin (hs : steps[j]? = some s) (hg : s.after.message? s.after.current = some got) :
    ((s.after.process? got.sender).isSome ∧ ∃ i, Arrived steps i j s.after.current got) ∨
      got.sender = .hardware ∧ Made steps j s.after.current got := by
  have hboxed := h.after_boxed hs
  have hbox : s.after.box s.after.current = .keeping (some got) := by
    obtain ⟨P, hk, hrest, hm⟩ := hboxed
    have hkeeps := hm.current hrest
    rw [hk.current] at hkeeps
    rw [Kernel.Boxed.message ⟨P, hk, hrest, hm⟩, hkeeps] at hg
    rw [hkeeps]
    exact congrArg Box.keeping hg
  obtain ⟨t, u, htj, hu, ⟨e, he, hf⟩, hlast⟩ := h.arrived hs hbox
  cases e with
  | delivered src d m =>
    obtain ⟨rfl, rfl⟩ := Prod.mk.inj (Option.some_inj.mp hf)
    obtain ⟨m', asks, ho, rfl, -⟩ := (h.path hu).delivery he
    obtain ⟨i, v, hit, hv, hpost, hnone⟩ := h.posted hu ho
    refine Or.inl ⟨?_, i, src, m', v, t, hv, hpost, rfl, ⟨hit, ⟨u, hu, _, _, he⟩, hnone⟩, htj, hlast⟩
    have hcount := h.proper.processCount_mono hv (Nat.le_trans hit htj) hs
    refine Table.get?_isSome_iff.mpr (Nat.lt_of_lt_of_le ?_ hcount)
    rw [← hpost.1]
    exact h.current_exists hv
  | notified d ty =>
    obtain ⟨rfl, rfl⟩ := Prod.mk.inj (Option.some_inj.mp hf)
    exact Or.inr ⟨rfl, ty, u, t, (h.path hu).notified he, rfl, hu, he, htj, hlast⟩
  | _ => cases hf

end

end Run

/-- Every message is delivered at most once and unaltered, and stays where it is until then and from then on; what a
    process finds in its slot is the message of one call, or a message of the kernel. -/
theorem delivered_exactly_once {config : Config} {steps : List Step} {k : Kernel} (h : Run Call.Admissible config steps k) :
    (∀ i s src dest msg, steps[i]? = some s → s.Posts src dest msg → Transfer steps i src dest msg) ∧
    ∀ j s got, steps[j]? = some s → s.after.message? s.after.current = some got →
      ((s.after.process? got.sender).isSome ∧ ∃! i, Arrived steps i j s.after.current got) ∨
        got.sender = .hardware ∧ Made steps j s.after.current got := by
  refine ⟨fun i s src dest msg hs hp => h.transfer hs hp, fun j s got hs hg => ?_⟩
  rcases h.origin hs hg with ⟨hsome, i, ha⟩ | hmade
  · exact Or.inl ⟨hsome, i, ha, fun i' ha' => h.arrived_unique ha' ha⟩
  · exact Or.inr hmade

theorem delivered_exactly_once_exchange :
    Delivery exchange.1 ⟨1⟩ 3 7 ∧ Transfer exchange.1 3 ⟨1⟩ ⟨2⟩ (.withInt ⟨16⟩ 7) := by
  have hposts : exchange.1[3]?.map (fun s => (s.before.current, s.before.table.lookup 2, s.request?)) =
      some (⟨1⟩, .ok ⟨2⟩, some (.sendRec 2 (.withInt ⟨16⟩ 7))) := by decide +kernel
  have hdelivers : exchange.1[7]?.any (.delivered ⟨1⟩ ⟨2⟩ { Message.withInt ⟨16⟩ 7 with sender := ⟨1⟩ } ∈ ·.events) := by
    decide +kernel
  have hcurrent : ∀ t ≤ 7, 3 < t → exchange.1[t]?.map (·.before.current) ≠ some ⟨1⟩ := by decide +kernel
  obtain ⟨s, hs, hs'⟩ := Option.map_eq_some_iff.mp hposts
  obtain ⟨hfirst, hrest⟩ := Prod.mk.inj hs'
  obtain ⟨hlookup, hrequest⟩ := Prod.mk.inj hrest
  obtain ⟨u, hu, hd⟩ := (Option.any_eq_true ..).mp hdelivers
  refine ⟨⟨by decide, ⟨u, hu, _, _, of_decide_eq_true hd⟩, fun t v ht ht' hv dest msg hp => hcurrent t ht' ht ?_⟩,
    (delivered_exactly_once exchange_run).1 3 s ⟨1⟩ ⟨2⟩ _ hs ⟨hfirst, 2, hlookup, Or.inr hrequest⟩⟩
  rw [hv, Option.map_some, hp.1]

end Rendezvous
