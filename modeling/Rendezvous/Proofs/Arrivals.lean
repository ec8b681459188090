import Rendezvous.Proofs.Boxes
import Rendezvous.Proofs.Conduct
import Rendezvous.Proofs.Lineup

/-! # Arrivals

What each step of a run does to the ready queues, and since when the processes in them have been there. -/

namespace Rendezvous

namespace Kernel

/-- The members of a ready queue, from its head on. -/
def line (k : Kernel) (l : Level) : List Pid := (k.table.chain (k.scheduler.queues.get l).head).toOption.getD []

/-- What the ready queues go by, for each process of a kernel. -/
def rank (k : Kernel) (p : Pid) : Option (Option Level × Nat) := (k.process? p).map Descriptor.rank

/-- The level of a process, if it has one. -/
def level? (k : Kernel) (p : Pid) : Option Level := (k.process? p).bind (·.priority.level?)

/-- The members of the ready queues are the processes that are linked into them. -/
def LinesUp (k : Kernel) : Prop := ∀ l p, p ∈ k.line l ↔ k.table.linkOf p = some (.ready l)

namespace Shows

variable {k k' : Kernel} {P : Plain} {c : Call} {a : Answer}

theorem chain_line (h : k.Shows P) (l : Level) : k.table.chain (k.scheduler.queues.get l).head = .ok (P.ready l) :=
  (h.2.holds (.ready l)).walk

theorem line (h : k.Shows P) : P.ready = k.line := by
  funext l
  rw [Kernel.line, h.chain_line]
  rfl

theorem rank (h : k.Shows P) : P.rank = k.rank := by
  funext p
  rw [Plain.rank, Plain.read, h.process, Table.plain, Option.map_map]
  rfl

theorem level? (h : k.Shows P) (p : Pid) : k.level? p = (P.process p).bind (·.priority.level?) := by
  rw [h.process, Table.plain, Option.bind_map]
  rfl

theorem policy (h : k.Shows P) : P.policy = k.scheduler.policy := by
  rw [h.1]
  rfl

theorem linesUp (h : k.Shows P) : k.LinesUp := by
  intro l p
  rw [← h.line]
  exact h.2.threaded.member (.ready l) p

/-- A process in a ready queue of `Q` goes by its priority there, which it still has in the kernel. -/
theorem placed (h : k.Shows P) {Q : Plain} {hand : List Pid} (hs : Q.Sound hand)
    (hread : P.read (·.priority) = Q.read (·.priority)) {l : Level} {p : Pid} (hp : p ∈ Q.ready l) :
    p ≠ .idle ∧ goesTo Q.rank l p ∧ k.level? p = some l := by
  obtain ⟨hne, -, d, hd, -, hlevel⟩ := hs.of_ready hp
  have hsame := congrFun hread p
  rw [Plain.read, Plain.read, hd, Option.map_some] at hsame
  obtain ⟨e, he, hpriority⟩ := Option.map_eq_some_iff.mp hsame
  refine ⟨hne, ?_, ?_⟩
  · rw [goesTo, Plain.rank_eq hd, hlevel]
    simp
  · rw [h.level?, he, Option.bind_some, hpriority, hlevel]

/-- A call that returns does to the lists what its plain counterpart does. -/
theorem conducts (h : k.Shows P) (hrest : P.Rests) (ht : P.Timed) (hc : c.Proper k)
    (hok : (k.call c).outcome = .ok (a, k')) : ∃ R, k'.Shows R ∧ R.Rests ∧ R.Timed ∧
      R.trace = P.trace ++ (k.call c).events ∧ P.Conducts (c.wants P.current) c.Switches R := by
  obtain ⟨lines, hk', hrest', htrace⟩ := h.call_ok hrest hc hok
  have hlines : ∀ e ∈ lines.map Event.dumped, e.Apart := by
    simp [Event.Apart, Event.pick?, Event.touched]
  have hchecked := call_checked hok
  have hfound : ∀ register p, k.table.lookup register = .ok p → (P.process (Plain.named register)).isSome := by
    intro register p hp
    obtain ⟨rfl, d, hd, -⟩ := h.alive_of_lookup hrest.sound hp
    rw [hd, Option.isSome_some]
  have hconducts : P.Conducts (c.wants P.current) c.Switches (P.after (lines.map .dumped) c) := by
    refine hrest.conducts ht c hlines (fun hi => hc.fitsIdle (h.current ▸ hi)) (fun dest msg hr => ?_) ?_ hrest'
    · rcases hr with hr | hr
      · obtain ⟨p, hp⟩ := hchecked _ hr
        exact hfound dest p hp
      · obtain ⟨⟨p, hp⟩, -⟩ := hchecked _ hr
        exact hfound dest p hp
    · rintro rfl
      exact h.running.trans hc
  refine ⟨_, hk', hrest', ?_, htrace, hconducts⟩
  obtain ⟨es, ws, Q, hconduct, hending⟩ := hconducts
  cases hending with
  | stays same => exact same ▸ hconduct.timed
  | chooses sound chosen => exact chosen ▸ hconduct.timed.chosen.timed

end Shows

end Kernel

namespace Step

/-- The processes that are chosen to run in the step. -/
def picked (s : Step) : List Pid := s.events.filterMap Event.pick?

/-- The processes that become ready in the step, in this order. -/
def touched (s : Step) : List Pid := s.events.flatMap Event.touched

/-- What the step does to the ready queues: the processes of `ws` come in, which makes the queues `full`, and one may
    be chosen out of them. While they come in, the processes have the ranks of `rank`. -/
structure Turnover (s : Step) (ws : List Pid) (rank : Pid → Option (Option Level × Nat)) (full : Level → List Pid) :
    Prop where
  kept : ∀ l, ∀ p ∈ s.before.line l, rank p = s.before.rank p
  entered : full = ws.foldl (s.before.scheduler.policy.place rank) s.before.line
  ordered : InOrder s.touched ws
  distinct : ∀ l, (full l).Nodup
  placed : ∀ l, ∀ p ∈ full l, p ≠ .idle ∧ goesTo rank l p ∧ s.after.level? p = some l
  left : ∀ l, ∀ p ∈ s.after.line l, s.after.rank p = rank p
  choice : s.picked = [] ∧ s.after.line = full ∨
    s.picked = [s.after.current] ∧ Choice full s.after.current s.after.line
  unpicked : s.picked = [] → ¬s.call.Switches ∧ s.after.current = s.before.current ∧
    ∀ src dest msg, .delivered src dest msg ∉ s.events

end Step

namespace Run

variable {config : Config} {steps : List Step} {k : Kernel} {s : Step} {i : Nat} {l : Level} {p : Pid}

section
variable (h : Run Call.Proper config steps k)
include h

theorem timed : ∃ P, k.Shows P ∧ P.Rests ∧ P.Timed := by
  induction h with
  | boot =>
    refine ⟨_, .boot config, Plain.boot_rests config, rfl, fun p hp => ?_⟩
    cases hp
  | call _ allowed done ih =>
    obtain ⟨P, hk, hrest, ht⟩ := ih
    obtain ⟨R, hk', hrest', ht', -⟩ := hk.conducts hrest ht allowed done
    exact ⟨R, hk', hrest', ht'⟩

theorem linesUp : k.LinesUp := by
  obtain ⟨P, hk, -⟩ := h.resting
  exact hk.linesUp

theorem policy_eq : k.scheduler.policy = config.policy := by
  induction h with
  | boot => rfl
  | call before allowed done ih =>
    obtain ⟨P, hk, hrest, ht⟩ := before.timed
    obtain ⟨R, hk', -, -, -, es, ws, Q, hconduct, hending⟩ := hk.conducts hrest ht allowed done
    have hpolicy : R.policy = P.policy := by
      cases hending with
      | stays same => rw [same, hconduct.policy]
      | chooses sound chosen => rw [chosen, hconduct.timed.chosen.policy, hconduct.policy]
    rw [← hk'.policy, hpolicy, hk.policy, ih]

theorem conducts (hs : steps[i]? = some s) : ∃ P R, s.before.Shows P ∧ P.Rests ∧ s.after.Shows R ∧ R.Rests ∧
    R.trace = P.trace ++ s.events ∧ P.Conducts (s.call.wants P.current) s.call.Switches R := by
  obtain ⟨hrun, hc, hok⟩ := h.step hs
  obtain ⟨P, hk, hrest, ht⟩ := hrun.timed
  obtain ⟨R, hk', hrest', -, htrace, hconducts⟩ := hk.conducts hrest ht hc hok
  exact ⟨P, R, hk, hrest, hk', hrest', htrace, hconducts⟩

/-- Every step of a run is a turnover of the ready queues. -/
theorem turnover (hs : steps[i]? = some s) : ∃ ws rank full, s.Turnover ws rank full := by
  obtain ⟨P, R, hk, hrest, hk', hrest', htrace, es, ws, Q, hc, hending⟩ := h.conducts hs
  have hpicks : es.filterMap Event.pick? = [] := List.filterMap_eq_nil_iff.mpr hc.unpicked
  have hkept : ∀ l, ∀ p ∈ s.before.line l, Q.rank p = s.before.rank p := by
    rw [← hk.line, ← hk.rank]
    exact hc.rank
  have hentered : Q.ready = ws.foldl (s.before.scheduler.policy.place Q.rank) s.before.line := by
    rw [← hk.policy, ← hk.line]
    exact hc.ready
  cases hending with
  | stays same current goes undelivered =>
    obtain rfl : es = s.events := by
      rw [same, hc.trace] at htrace
      exact List.append_cancel_left htrace
    have hs : Q.Sound (inHand Q.current) := same ▸ hrest'.sound
    refine ⟨ws, Q.rank, Q.ready, hkept, hentered, hc.ordered, fun l => hs.queue _,
      fun l p => hk'.placed hs (by rw [same]), fun l p _ => ?_, .inl ⟨hpicks, ?_⟩, fun _ => ⟨goes, ?_, undelivered⟩⟩
    · rw [← hk'.rank, same]
    · rw [← hk'.line, same]
    · rw [← hk'.current, ← hk.current, same, current]
  | chooses sound chosen =>
    have hchosen := hc.timed.chosen
    rw [← chosen] at hchosen
    obtain ⟨name, hname⟩ := hchosen.trace
    have hevents : s.events = es ++ [.picked R.current name] := by
      rw [hname, hc.trace, List.append_assoc] at htrace
      exact (List.append_cancel_left htrace).symm
    -- The last event of the step is its only pick.
    have hpicked : s.picked = [s.after.current] := by
      rw [Step.picked, hevents, List.filterMap_append, hpicks, ← hk'.current]
      rfl
    refine ⟨ws, Q.rank, Q.ready, hkept, hentered, ?_, fun l => sound.queue _,
      fun l p => hk'.placed sound hchosen.priority, fun l p hp => ?_, .inr ⟨hpicked, ?_⟩, fun hnone => by
        cases hnone.symm.trans hpicked⟩
    · have htouched : s.touched = es.flatMap Event.touched := by
        rw [Step.touched, hevents, List.flatMap_append]
        exact List.append_nil _
      exact htouched ▸ hc.ordered
    · rw [← hk'.line] at hp
      rw [← hk'.rank, hchosen.rank p (hrest'.ne_of_queued hp)]
    · rw [← hk'.current, ← hk'.line]
      exact hchosen.choice

/-- The idle process has no level. -/
theorem level?_idle : k.level? .idle = none := by
  obtain ⟨P, hk, hrest⟩ := h.resting
  obtain ⟨d, hd, hidle⟩ := hrest.sound.idle
  rw [hk.level?, hd, Option.bind_some, hidle.priority]
  rfl

end

end Run

/-! ### Since when -/

/-- In this step `p` is put into the ready queue of level `l`. It may be chosen to run at once. -/
def Step.Enters (s : Step) (p : Pid) (l : Level) : Prop :=
  s.before.table.linkOf p ≠ some (.ready l) ∧
    (s.after.table.linkOf p = some (.ready l) ∨ p ∈ s.picked ∧ s.after.level? p = some l)

/-- Put into the ready queue of level `l` in step `i`, the process `p` stays there up to step `j`. -/
structure ReadySince (steps : List Step) (l : Level) (p : Pid) (i j : Nat) : Prop where
  enters : ∃ s, steps[i]? = some s ∧ s.Enters p l
  stays : ∀ t s, i ≤ t → t < j → steps[t]? = some s → s.after.table.linkOf p = some (.ready l)

/-- Step `i` has made `p` ready before step `i'` has made `q` ready, or in the same step before it. -/
def Ahead (steps : List Step) (i : Nat) (p : Pid) (i' : Nat) (q : Pid) : Prop :=
  i < i' ∨ i = i' ∧ ∃ s, steps[i]? = some s ∧ s.touched.idxOf p < s.touched.idxOf q

/-- Up to step `j`, both have been in the ready queue of level `l`, `p` for longer than `q`. -/
def Earlier (steps : List Step) (l : Level) (j : Nat) (p q : Pid) : Prop :=
  ∃ i i', ReadySince steps l p i j ∧ ReadySince steps l q i' j ∧ Ahead steps i p i' q

section
variable {steps : List Step} {l : Level} {p q : Pid} {i i' j : Nat} {s : Step}

theorem ReadySince.append (h : ReadySince steps l p i j) (hj : j ≤ steps.length) (more : List Step) :
    ReadySince (steps ++ more) l p i j := by
  obtain ⟨s, hs, henters⟩ := h.enters
  refine ⟨⟨s, ?_, henters⟩, fun t u hit htj hu => h.stays t u hit htj ?_⟩
  · rw [List.getElem?_append_left (List.getElem?_eq_some_iff.mp hs).1, hs]
  · rwa [List.getElem?_append_left (Nat.lt_of_lt_of_le htj hj)] at hu

theorem ReadySince.next (h : ReadySince steps l p i j) (hs : steps[j]? = some s)
    (hp : s.after.table.linkOf p = some (.ready l)) : ReadySince steps l p i (j + 1) := by
  refine ⟨h.enters, fun t u hit htj hu => ?_⟩
  rcases Nat.lt_succ_iff_lt_or_eq.mp htj with htj | rfl
  · exact h.stays t u hit htj hu
  · obtain rfl := Option.some_inj.mp (hs.symm.trans hu)
    exact hp

theorem Ahead.append (h : Ahead steps i p i' q) (more : List Step) : Ahead (steps ++ more) i p i' q := by
  rcases h with hlt | ⟨rfl, s, hs, hidx⟩
  · exact .inl hlt
  · refine .inr ⟨rfl, s, ?_, hidx⟩
    rw [List.getElem?_append_left (List.getElem?_eq_some_iff.mp hs).1, hs]

theorem Earlier.append (h : Earlier steps l j p q) (hj : j ≤ steps.length) (more : List Step) :
    Earlier (steps ++ more) l j p q := by
  obtain ⟨i, i', hp, hq, hahead⟩ := h
  exact ⟨i, i', hp.append hj more, hq.append hj more, hahead.append more⟩

theorem Earlier.next (h : Earlier steps l j p q) (hs : steps[j]? = some s)
    (hp : s.after.table.linkOf p = some (.ready l)) (hq : s.after.table.linkOf q = some (.ready l)) :
    Earlier steps l (j + 1) p q := by
  obtain ⟨i, i', hp', hq', hahead⟩ := h
  exact ⟨i, i', hp'.next hs hp, hq'.next hs hq, hahead⟩

end

/-- The members of the queues have come in during the steps up to `j`, and stand as the policy wants it. -/
structure Lined (steps : List Step) (j : Nat) (policy : Policy) (rank : Pid → Option (Option Level × Nat))
    (ready : Level → List Pid) : Prop where
  since : ∀ l, ∀ p ∈ ready l, ∃ i, ReadySince steps l p i j
  orders : ∀ l, (ready l).Pairwise (policy.Orders (scoreOf rank) (Earlier steps l j))

namespace Step.Turnover

variable {s : Step} {ws : List Pid} {rank : Pid → Option (Option Level × Nat)} {full : Level → List Pid} {l : Level}
  {p : Pid} {steps : List Step} {policy : Policy}

section
variable (h : s.Turnover ws rank full)
include h

theorem perm (l : Level) : (full l).Perm (ws.filter (goesTo rank l) ++ s.before.line l) := by
  rw [h.entered]
  exact Policy.place_perm _ l

theorem mem_full : p ∈ full l ↔ (p ∈ ws ∧ goesTo rank l p) ∨ p ∈ s.before.line l := by
  rw [(h.perm l).mem_iff, List.mem_append, List.mem_filter]

theorem fresh (hp : p ∈ ws) (hgoes : goesTo rank l p) : p ∉ s.before.line l := by
  have hdistinct := (h.perm l).nodup_iff.mp (h.distinct l)
  exact fun hline => (List.nodup_append.mp hdistinct).2.2 p (List.mem_filter.mpr ⟨hp, hgoes⟩) p hline rfl

/-- A choice takes at most the head of a queue away. -/
theorem sublist (l : Level) : (s.after.line l).Sublist (full l) := by
  rcases h.choice with ⟨-, hsame⟩ | ⟨-, hchoice⟩
  · rw [hsame]
  · cases hchoice with
    | idle empty runs left => rw [left]
    | front l' rest head urgent left =>
      rw [left]
      by_cases hl : l = l'
      · subst hl
        rw [Function.update_self, head]
        exact List.sublist_cons_self ..
      · rw [Function.update_of_ne hl]

theorem enters (hbefore : s.before.LinesUp) (hafter : s.after.LinesUp) (hp : p ∈ ws) (hgoes : goesTo rank l p) :
    s.Enters p l := by
  refine ⟨fun hlink => h.fresh hp hgoes ((hbefore l p).mpr hlink), ?_⟩
  have hfull := h.mem_full.mpr (.inl ⟨hp, hgoes⟩)
  rw [← hafter]
  rcases h.choice with ⟨-, hsame⟩ | ⟨hpicked, hchoice⟩
  · exact .inl (hsame ▸ hfull)
  · cases hchoice with
    | idle empty runs left => exact .inl (left ▸ hfull)
    | front l' rest head urgent left =>
      rw [left]
      by_cases hl : l = l'
      · subst hl
        rw [Function.update_self]
        rw [head] at hfull
        -- A newcomer that is picked in the same step enters its queue as well, at the head.
        rcases List.mem_cons.mp hfull with rfl | hrest
        · exact .inr ⟨hpicked ▸ List.mem_singleton_self _, (h.placed l _ (head ▸ List.mem_cons_self)).2.2⟩
        · exact .inl hrest
      · rw [Function.update_of_ne hl]
        exact .inl hfull

end

/-- The queues are in order when all newcomers have come in. -/
theorem lined (h : s.Turnover ws rank full) (hlined : Lined steps steps.length policy s.before.rank s.before.line)
    (hpolicy : s.before.scheduler.policy = policy) (hbefore : s.before.LinesUp) (hafter : s.after.LinesUp) :
    Lined (steps ++ [s]) steps.length policy rank full := by
  have hold : ∀ l, ∀ p ∈ s.before.line l, ∃ i, i < steps.length ∧ ReadySince (steps ++ [s]) l p i steps.length := by
    intro l p hp
    obtain ⟨i, hi⟩ := hlined.since l p hp
    obtain ⟨u, hu, -⟩ := hi.enters
    exact ⟨i, (List.getElem?_eq_some_iff.mp hu).1, hi.append (Nat.le_refl _) [s]⟩
  have hlast : (steps ++ [s])[steps.length]? = some s := List.getElem?_concat_length
  have hnew : ∀ l, ∀ w ∈ ws, goesTo rank l w → ReadySince (steps ++ [s]) l w steps.length steps.length :=
    fun l w hw hgoes => ⟨⟨s, hlast, h.enters hbefore hafter hw hgoes⟩, fun t u hle hlt =>
      absurd hle (Nat.not_le.mpr hlt)⟩
  have hscore : ∀ l, ∀ p ∈ s.before.line l, scoreOf rank p = scoreOf s.before.rank p := fun l p hp => by
    rw [scoreOf, h.kept l p hp, scoreOf]
  refine ⟨fun l p hp => ?_, fun l => ?_⟩
  · rcases h.mem_full.mp hp with ⟨hw, hgoes⟩ | hp
    · exact ⟨_, hnew l p hw hgoes⟩
    · obtain ⟨i, -, hi⟩ := hold l p hp
      exact ⟨i, hi⟩
  · rw [h.entered, hpolicy]
    refine Policy.place_orders (fun l => Earlier (steps ++ [s]) l steps.length) (fun l => ?_) (fun l p hp => ?_)
      (fun l p hp w hw hgoes => ?_) (h.ordered.imp_of_mem fun {v w} hv hw hvw l hgoes hgoes' => ?_) l
    · refine (hlined.orders l).imp_of_mem fun {p q} hp hq hpq => ?_
      exact (hpq.mono fun he => he.append (Nat.le_refl _) [s]).of_score (hscore l p hp) (hscore l q hq)
    · have hgoes := (h.placed l p (h.mem_full.mpr (.inr hp))).2.1
      obtain ⟨r, hr, -⟩ := (Option.any_eq_true ..).mp hgoes
      rw [scoreOf, hr, Option.map_some, Option.isSome_some]
    · -- Who was there before has been ready since an earlier step.
      obtain ⟨i, hlt, hi⟩ := hold l p hp
      exact ⟨i, _, hi, hnew l w hw hgoes, .inl hlt⟩
    · -- Of two newcomers, the step makes the one ahead ready first.
      exact ⟨_, _, hnew l v hv hgoes, hnew l w hw hgoes', .inr ⟨rfl, s, hlast, hvw⟩⟩

/-- A choice leaves them in order. -/
theorem lined_after (h : s.Turnover ws rank full) (hlined : Lined (steps ++ [s]) steps.length policy rank full)
    (hafter : s.after.LinesUp) :
    Lined (steps ++ [s]) (steps.length + 1) policy s.after.rank s.after.line := by
  have hlast : (steps ++ [s])[steps.length]? = some s := List.getElem?_concat_length
  have hscore : ∀ l, ∀ p ∈ s.after.line l, scoreOf s.after.rank p = scoreOf rank p := fun l p hp => by
    rw [scoreOf, h.left l p hp, scoreOf]
  refine ⟨fun l p hp => ?_, fun l => ?_⟩
  · obtain ⟨i, hi⟩ := hlined.since l p ((h.sublist l).subset hp)
    exact ⟨i, hi.next hlast ((hafter l p).mp hp)⟩
  · refine ((hlined.orders l).sublist (h.sublist l)).imp_of_mem fun {p q} hp hq hpq => ?_
    exact (hpq.mono fun he => he.next hlast ((hafter l p).mp hp) ((hafter l q).mp hq)).of_score (hscore l p hp)
      (hscore l q hq)

end Step.Turnover

namespace Run

variable {config : Config} {steps : List Step} {k : Kernel} {s : Step}

/-- All the queues of a running kernel are in order. -/
theorem lined (h : Run Call.Proper config steps k) : Lined steps steps.length config.policy k.rank k.line := by
  induction h with
  | boot =>
    have hempty : ∀ l, (Kernel.boot config).line l = [] := fun l => by
      rw [← (Kernel.Shows.boot config).line]
      rfl
    refine ⟨fun l p hp => ?_, fun l => ?_⟩
    · rw [hempty] at hp
      cases hp
    · rw [hempty]
      exact List.Pairwise.nil
  | @call steps k k' c answer before allowed done ih =>
    have hrun := before.call allowed done
    obtain ⟨ws, rank, full, hturn⟩ := hrun.turnover List.getElem?_concat_length
    rw [List.length_append]
    exact hturn.lined_after (hturn.lined ih before.policy_eq before.linesUp hrun.linesUp) hrun.linesUp

/-- There is only one step since which a process has been in a queue. -/
theorem readySince_unique (h : Run Call.Proper config steps k) {l : Level} {p : Pid} {i i' j : Nat}
    (hi : ReadySince steps l p i j) (hi' : ReadySince steps l p i' j) (hij : i ≤ j) (hij' : i' ≤ j) : i = i' := by
  -- A process that enters a queue was not there after the step before.
  have hnot : ∀ {i i'}, ReadySince steps l p i j → ReadySince steps l p i' j → i' ≤ j → ¬i < i' := by
    intro i i' hi hi' hij' hlt
    obtain ⟨s, hs, hout, -⟩ := hi'.enters
    obtain ⟨t, u, hit, rfl, hu, hb⟩ := h.before_of_lt hlt hs
    exact hout (hb ▸ hi.stays t u hit hij' hu)
  exact Nat.le_antisymm (Nat.not_lt.mp (hnot hi' hi hij)) (Nat.not_lt.mp (hnot hi hi' hij'))

/-- In the last step of a run, the queues are in order before the choice. -/
theorem lined_full (h : Run Call.Proper config (steps ++ [s]) k) : k = s.after ∧ ∃ ws rank full,
    s.Turnover ws rank full ∧ Lined (steps ++ [s]) steps.length config.policy rank full := by
  have hlast : (steps ++ [s])[steps.length]? = some s := List.getElem?_concat_length
  have hk : k = s.after := by simpa using h.last
  subst hk
  have hbefore := (h.step hlast).1
  rw [List.take_left'] at hbefore
  · obtain ⟨ws, rank, full, hturn⟩ := h.turnover hlast
    exact ⟨rfl, ws, rank, full, hturn, hturn.lined hbefore.lined hbefore.policy_eq hbefore.linesUp h.linesUp⟩
  · rfl

end Run

end Rendezvous
