import Rendezvous.Proofs.Fields
import Rendezvous.Scheduler

/-! The linked lists of a table hold plain lists: a ready queue for each level and a waiting list for each
    process. Each list operation of the table and of the scheduler succeeds and does to the plain lists
    what its name says, and to the descriptors nothing but what it tells of the process concerned. -/

namespace Rendezvous

/-- The head of each list: of the ready queues `q`, and of the waiting lists by `w`. -/
def heads (q : ReadyQueues) (w : Pid → Option Pid) : Link → Option Pid
  | .ready l => (q.get l).head
  | .waiting dest => w dest

/-- The ready queues `q` and the waiting lists that start at `w`, all threaded through `t`, hold the
    lists of `queue`. -/
structure Lists (q : ReadyQueues) (w : Pid → Option Pid) (t : Table) (queue : Link → List Pid) : Prop where
  threaded : Threaded (heads q w) t.nextOf t.linkOf queue
  tail : ∀ l, (q.get l).tail = (queue (.ready l)).getLast?

/-- The list with `p` where the policy wants it; `before` tells who has a score that is no larger. -/
def Policy.insert (policy : Policy) (before : Pid → Bool) (l : List Pid) (p : Pid) : List Pid :=
  match policy with
  | .fifo => l ++ [p]
  | .scored => l.takeWhile before ++ p :: l.dropWhile before

theorem Policy.eq_fifo_or_scored (policy : Policy) : policy = .fifo ∨ policy = .scored := by
  cases policy
  · exact Or.inl rfl
  · exact Or.inr rfl

theorem Policy.insert_perm (policy : Policy) (before : Pid → Bool) (l : List Pid) (p : Pid) :
    (policy.insert before l p).Perm (p :: l) := by
  cases policy with
  | fifo => exact List.perm_append_singleton p l
  | scored =>
    have hl : (l.takeWhile before ++ p :: l.dropWhile before).Perm
        (p :: (l.takeWhile before ++ l.dropWhile before)) := List.perm_middle
    rw [List.takeWhile_append_dropWhile] at hl
    exact hl

theorem heads_set (q : ReadyQueues) (w : Pid → Option Pid) (l : Level) (queue : ReadyQueue) :
    heads (q.set l queue) w = Function.update (heads q w) (.ready l) queue.head := by
  funext link
  cases link with
  | ready l' =>
    by_cases hl : l' = l
    · subst hl
      simp [heads]
    · rw [Function.update_of_ne (by simpa using hl), heads, heads, q.get_set_ne queue hl]
  | waiting dest => rw [Function.update_of_ne (by simp), heads, heads]

theorem heads_update (q : ReadyQueues) (w : Pid → Option Pid) (dest : Pid) (first : Option Pid) :
    heads q (Function.update w dest first) = Function.update (heads q w) (.waiting dest) first := by
  funext link
  cases link with
  | ready l => rw [Function.update_of_ne (by simp), heads, heads]
  | waiting dest' => by_cases hd : dest' = dest <;> simp [heads, hd]

namespace Table

variable {t : Table}

theorem relink_ok {dest : Pid} (before : Option Pid) (hd : (t.get? dest).isSome)
    (hb : ∀ b, before = some b → (t.get? b).isSome) (after : Option Pid) :
    ∃ t', t.relink dest before after = .ok t' ∧ t'.nextOf = rewire t.nextOf before after ∧
      (∀ q, heads q t'.waitingOf = rehead (heads q t.waitingOf) (.waiting dest) before after) ∧
      t'.plain = t.plain ∧ SameStore t t' := by
  cases before with
  | none =>
    obtain ⟨e, he⟩ := Option.isSome_iff_exists.mp hd
    obtain ⟨t', ht, hn, hw, hp, hs⟩ := setWaiting_ok he after
    exact ⟨t', ht, hn, fun q => by rw [hw, heads_update]; rfl, hp, hs⟩
  | some b =>
    obtain ⟨d, hd⟩ := Option.isSome_iff_exists.mp (hb b rfl)
    obtain ⟨t', ht, hn, hw, hp, hs⟩ := setNext_ok hd after
    exact ⟨t', ht, hn, fun q => by rw [hw]; rfl, hp, hs⟩

theorem linkOf_of_plain_update {t' : Table} {p : Pid} {d : Descriptor}
    (h : t'.plain = Function.update t.plain p (some d)) : t'.linkOf = Function.update t.linkOf p d.link := by
  funext x
  rw [linkOf_eq, h]
  by_cases hx : x = p
  · rw [hx, Function.update_self, Function.update_self, Option.bind_some]
  · rw [Function.update_of_ne hx, Function.update_of_ne hx, linkOf_eq]

end Table

namespace Lists

open Table

variable {q : ReadyQueues} {w : Pid → Option Pid} {t : Table} {queue : Link → List Pid} {p : Pid}
  {d : Descriptor}

theorem found (h : Lists q w t queue) {link : Link} (hp : p ∈ queue link) : (t.get? p).isSome := by
  have hlink := (h.threaded.member link p).mp hp
  cases hg : t.get? p with
  | none => simp [linkOf, hg] at hlink
  | some d => rfl

theorem getLast_found (h : Lists q w t queue) {link : Link} {ahead behind : List Pid}
    (hq : queue link = ahead ++ behind) : ∀ b, ahead.getLast? = some b → (t.get? b).isSome := fun b hb =>
  have hmem : b ∈ queue link := by
    rw [hq]
    exact List.mem_append_left _ (List.mem_of_getLast? hb)
  h.found hmem

theorem chain (h : Lists q w t queue) (link : Link) : t.chain (heads q w link) = .ok (queue link) :=
  chain_segment (h.threaded.path link) fun _ hp => h.found hp

/-- A member of a list is found again by its place in it, and all before it by being before it. -/
theorem erase_middle {ahead behind : List Pid} (h : Lists q w t queue) {link : Link}
    (hq : queue link = ahead ++ p :: behind) : (queue link).erase p = ahead ++ behind := by
  have distinct := h.threaded.nodup link
  rw [hq] at distinct ⊢
  have fresh : p ∉ ahead ++ behind := (List.nodup_cons.mp (List.nodup_middle.mp distinct)).1
  rw [List.erase_append_right _ fun hp => fresh (List.mem_append_left _ hp), List.erase_cons_head]

/-- Puts a process that is in no list at the end of a waiting list. -/
theorem addWaiting {dest src : Pid} (h : Lists q t.waitingOf t queue) (hdest : (t.get? dest).isSome)
    (hsrc : t.get? src = some d) (free : d.link = none) :
    ∃ t', t.addWaiting dest src = .ok t' ∧
      Lists q t'.waitingOf t'
        (Function.update queue (.waiting dest) (queue (.waiting dest) ++ [src])) ∧
      t'.plain = Function.update t.plain src (some { d.plain with link := some (.waiting dest) }) ∧
      SameStore t t' := by
  have hfree : t.linkOf src = none := by rw [linkOf, hsrc, Option.bind_some, free]
  let woven : Descriptor := { d with next := none, link := some (.waiting dest) }
  have hnext : (t.put src woven).nextOf = Function.update t.nextOf src none := nextOf_put hsrc _
  have hwait : (t.put src woven).waitingOf = t.waitingOf := waitingOf_put_same hsrc rfl
  have hget := isSome_get?_put t src woven
  obtain ⟨e, he⟩ := Option.isSome_iff_exists.mp ((hget dest).trans hdest)
  have hfirst : e.waiting = heads q t.waitingOf (.waiting dest) := by
    rw [heads, ← hwait, waitingOf, he, Option.bind_some]
  -- The sender is woven in before the list is walked to its end; it is no member, so the walk does not meet it.
  have hchain : (t.put src woven).chain e.waiting = .ok (queue (.waiting dest)) := by
    refine chain_segment ?_ fun x hx => (hget x).trans (h.found hx)
    rw [hfirst, hnext]
    exact (h.threaded.path _).congr fun x hx =>
      Function.update_of_ne (ne_of_mem_of_not_mem hx (h.threaded.not_mem hfree _)) _ _
  obtain ⟨t', ht, hn, hw, hp, hs⟩ := relink_ok (t := t.put src woven)
    (queue (.waiting dest)).getLast? ((hget dest).trans hdest)
    (fun b hb => (hget b).trans (h.found (List.mem_of_getLast? hb))) (some src)
  have hplain : t'.plain = Function.update t.plain src (some woven.plain) := hp.trans (plain_put hsrc _)
  have hins := h.threaded.insert (q := .waiting dest) hfree (List.append_nil _).symm
  refine ⟨t', ?_, ⟨?_, fun l => ?_⟩, hplain, (SameStore.put t src woven).trans hs⟩
  · rw [Table.addWaiting, update_ok hsrc]
    show ((t.put src woven).fetch dest >>= fun e => (t.put src woven).chain e.waiting >>= _) = _
    rw [fetch_eq_ok.mpr he]
    show ((t.put src woven).chain e.waiting >>= _) = _
    rw [hchain]
    exact ht
  · rw [hw, hn, hwait, hnext, linkOf_of_plain_update hplain]
    exact hins
  · rw [Function.update_of_ne (by simp)]
    exact h.tail l

/-- No sender is taken out of a waiting list where none offers what the filter accepts. -/
theorem takeWaiting_none {dest : Pid} {filter : MessageType} (h : Lists q t.waitingOf t queue)
    (hdest : t.get? dest = some d) (hfind : (queue (.waiting dest)).find? (t.offers filter) = none) :
    t.takeWaiting dest filter = .ok (none, t) := by
  have hfirst : d.waiting = heads q t.waitingOf (.waiting dest) := by
    rw [heads, waitingOf, hdest, Option.bind_some]
  have hchain := h.chain (.waiting dest)
  rw [← hfirst] at hchain
  unfold Table.takeWaiting
  rw [fetch_eq_ok.mpr hdest]
  simp only [bind, Except.bind, hchain, hfind]
  rfl

/-- Takes the first sender out of a waiting list that offers what the filter accepts. -/
theorem takeWaiting_some {dest src : Pid} {filter : MessageType} (h : Lists q t.waitingOf t queue)
    (hdest : (t.get? dest).isSome) (hfind : (queue (.waiting dest)).find? (t.offers filter) = some src) :
    ∃ d t', t.get? src = some d ∧ t.takeWaiting dest filter = .ok (some src, t') ∧
      Lists q t'.waitingOf t' (Function.update queue (.waiting dest) ((queue (.waiting dest)).erase src)) ∧
      t'.plain = Function.update t.plain src (some { d.plain with link := none }) ∧ SameStore t t' := by
  obtain ⟨hoffer, ahead, behind, hq, hahead⟩ := List.find?_eq_some_iff_append.mp hfind
  obtain ⟨e, he⟩ := Option.isSome_iff_exists.mp hdest
  obtain ⟨d, hd⟩ := Option.isSome_iff_exists.mp (h.found (show src ∈ queue (.waiting dest) by simp [hq]))
  have hfirst : e.waiting = heads q t.waitingOf (.waiting dest) := by
    rw [heads, waitingOf, he, Option.bind_some]
  have hchain := h.chain (.waiting dest)
  rw [← hfirst] at hchain
  have hnext : d.next = behind.head? := by
    have hpath := h.threaded.path (.waiting dest)
    rw [hq] at hpath
    rw [← hpath.next_of_append, nextOf, hd, Option.bind_some]
  -- The walk stops at the first offer, so what it has passed are the members ahead of the sender.
  have hbefore : (queue (.waiting dest)).takeWhile (fun x => !t.offers filter x) = ahead := by
    rw [hq, List.takeWhile_append_of_pos hahead, List.takeWhile_cons_of_neg (by simp [hoffer]),
      List.append_nil]
  obtain ⟨t₁, ht₁, hn₁, hw₁, hp₁, hs₁⟩ := relink_ok ahead.getLast? hdest (h.getLast_found hq) d.next
  -- The descriptor of the sender may have lost its old successor to the relinking of the list.
  obtain ⟨d₁, hd₁, hplain₁⟩ : ∃ d₁, t₁.get? src = some d₁ ∧ d₁.plain = d.plain := by
    have hsrc := congrFun hp₁ src
    rw [plain_eq_some hd] at hsrc
    exact Option.map_eq_some_iff.mp hsrc
  let freed : Descriptor := { d₁ with next := none, link := none }
  have hplain : (t₁.put src freed).plain =
      Function.update t.plain src (some { d.plain with link := none }) := by
    rw [plain_put hd₁, hp₁, ← hplain₁]
    rfl
  have hwait : (t₁.put src freed).waitingOf = t₁.waitingOf := waitingOf_put_same hd₁ rfl
  have hrem := h.threaded.remove hq
  refine ⟨d, t₁.put src freed, hd, ?_, ⟨?_, fun l => ?_⟩, hplain, hs₁.trans (SameStore.put t₁ src freed)⟩
  · unfold Table.takeWaiting
    simp only [bind, Except.bind, fetch_eq_ok.mpr he, fetch_eq_ok.mpr hd, hchain, hfind, hbefore, ht₁,
      update_ok hd₁]
    rfl
  · rw [hwait, hw₁, hnext, nextOf_put hd₁, hn₁, hnext, linkOf_of_plain_update hplain, h.erase_middle hq]
    exact hrem
  · rw [Function.update_of_ne (by simp)]
    exact h.tail l

theorem tail_set {s : Scheduler} (h : Lists s.queues w t queue) (l : Level) {ends : ReadyQueue} {members : List Pid}
    (hends : ends.tail = members.getLast?) (l' : Level) :
    ((s.setQueue l ends).queues.get l').tail = (Function.update queue (.ready l) members (.ready l')).getLast? := by
  rw [Scheduler.setQueue]
  by_cases hl : l' = l
  · subst hl
    rw [ReadyQueues.get_set_self, Function.update_self, hends]
  · rw [ReadyQueues.get_set_ne _ _ hl, Function.update_of_ne (by simpa using hl)]
    exact h.tail l'

/-- A ready queue keeps its head where something comes in behind it. -/
theorem head_stays {s : Scheduler} (h : Lists s.queues w t queue) {l : Level} {ahead behind : List Pid}
    (hq : queue (.ready l) = ahead ++ behind) {last : Pid} (hlast : ahead.getLast? = some last) (p : Pid) :
    (s.queues.get l).head = (ahead ++ p :: behind).head? := by
  have hfirst : (s.queues.get l).head = _ := (h.threaded.path (.ready l)).start_eq
  rw [hfirst, hq]
  cases ahead with
  | nil => cases hlast
  | cons x rest => rfl

theorem tail_stays {s : Scheduler} {l : Level} {ahead behind : List Pid} (h : Lists s.queues w t queue)
    (hq : queue (.ready l) = ahead ++ behind) (p : Pid) :
    (if behind.isEmpty then some p else (s.queues.get l).tail) = (ahead ++ p :: behind).getLast? := by
  rw [h.tail l, hq]
  cases behind with
  | nil => simp
  | cons x rest => simp [List.getLast?_append, List.getLast?_cons]

/-- Links a process that is in no list into a ready queue, between two parts of it. -/
theorem link_between {s : Scheduler} {l : Level} {ahead behind : List Pid} {w : Pid → Option Pid}
    (h : Lists s.queues w t queue) (hp : t.get? p = some d) (free : d.link = none)
    (hq : queue (.ready l) = ahead ++ behind) {t' : Table}
    (hnext : t'.nextOf = rewire (Function.update t.nextOf p behind.head?) ahead.getLast? (some p))
    (hplain : t'.plain =
      Function.update t.plain p (some { d.plain with state := .active, link := some (.ready l) }))
    {ends : ReadyQueue} (hhead : ends.head = (ahead ++ p :: behind).head?)
    (htail : ends.tail = (ahead ++ p :: behind).getLast?) :
    Lists (s.setQueue l ends).queues w t' (Function.update queue (.ready l) (ahead ++ p :: behind)) := by
  have hfree : t.linkOf p = none := by rw [linkOf, hp, Option.bind_some, free]
  have hins := h.threaded.insert (q := .ready l) hfree hq
  have hfirst := (h.threaded.path (.ready l)).start_eq
  rw [hq] at hfirst
  refine ⟨?_, h.tail_set l htail⟩
  · have hheads : heads (s.setQueue l ends).queues w =
        rehead (heads s.queues w) (.ready l) ahead.getLast? (some p) := by
      rw [Scheduler.setQueue, heads_set, hhead]
      rcases List.eq_nil_or_concat ahead with rfl | ⟨init, b, rfl⟩
      · rfl
      · rw [List.concat_eq_append, List.getLast?_concat, rehead]
        refine update_same (f := heads s.queues w) (hfirst.trans ?_)
        cases init <;> rfl
    rw [hheads, hnext, linkOf_of_plain_update hplain]
    exact hins

/-- A descriptor as it goes into the ready queue of a level. -/
def woken (d : Descriptor) (l : Level) : Descriptor :=
  { d with state := .active, next := none, link := some (.ready l) }

section Enqueue

variable {s : Scheduler} {l : Level}

theorem pushBack (h : Lists s.queues w t queue) (hp : t.get? p = some d) (free : d.link = none) :
    ∃ s' t', s.pushBack (t.put p (woken d l)) l p = .ok (s', t') ∧ s' = { s with queues := s'.queues } ∧
      Lists s'.queues w t' (Function.update queue (.ready l) (queue (.ready l) ++ [p])) ∧
      t'.waitingOf = t.waitingOf ∧ t'.plain = Function.update t.plain p (some (woken d l).plain) ∧
      SameStore t t' := by
  have hwait : (t.put p (woken d l)).waitingOf = t.waitingOf := waitingOf_put_same hp rfl
  have hplain := plain_put hp (woken d l)
  have hnext : (t.put p (woken d l)).nextOf = Function.update t.nextOf p none := nextOf_put hp _
  have htail := h.tail l
  rw [Scheduler.pushBack]
  cases hlast : (s.queues.get l).tail with
  | none =>
    -- No tail, so the queue is empty and the process becomes its head.
    have hnil : queue (.ready l) = [] := List.getLast?_eq_none_iff.mp (htail.symm.trans hlast)
    refine ⟨_, _, rfl, rfl, ?_, hwait, hplain, SameStore.put t p _⟩
    rw [hnil]
    exact h.link_between hp free (show queue (.ready l) = [] ++ [] from hnil) hnext hplain rfl rfl
  | some last =>
    -- The old tail leads to the process now.
    rw [hlast] at htail
    obtain ⟨e, he⟩ := Option.isSome_iff_exists.mp
      ((isSome_get?_put t p (woken d l) last).trans (h.found (List.mem_of_getLast? htail.symm)))
    obtain ⟨t', ht, hn, hw, hp', hs⟩ := setNext_ok he (some p)
    refine ⟨s.setQueue l { s.queues.get l with tail := some p }, t', by simp only [ht]; rfl, rfl, ?_,
      hw.trans hwait, hp'.trans hplain, (SameStore.put t p _).trans hs⟩
    have hq : queue (.ready l) = queue (.ready l) ++ [] := (List.append_nil _).symm
    refine h.link_between hp free hq ?_ (hp'.trans hplain) (h.head_stays hq htail.symm p) ?_
    · rw [hn, hnext, ← htail]
      rfl
    · rw [List.getLast?_concat]

theorem insertByScore (h : Lists s.queues w t queue) (hp : t.get? p = some d) (free : d.link = none) :
    ∃ s' t', s.insertByScore (t.put p (woken d l)) l p = .ok (s', t') ∧ s' = { s with queues := s'.queues } ∧
      Lists s'.queues w t' (Function.update queue (.ready l)
        (Policy.scored.insert (fun x => (t.plain x).any (·.score ≤ d.score)) (queue (.ready l)) p)) ∧
      t'.waitingOf = t.waitingOf ∧ t'.plain = Function.update t.plain p (some (woken d l).plain) ∧
      SameStore t t' := by
  have hfree : t.linkOf p = none := by rw [linkOf, hp, Option.bind_some, free]
  obtain ⟨u, hu⟩ : ∃ u, u = t.put p (woken d l) := ⟨_, rfl⟩
  have hget : u.get? p = some (woken d l) := by rw [hu, get?_put hp, Function.update_self]
  have hsome : ∀ x, (u.get? x).isSome = (t.get? x).isSome := hu ▸ isSome_get?_put t p (woken d l)
  have hwait : u.waitingOf = t.waitingOf := hu ▸ waitingOf_put_same hp rfl
  have hplain : u.plain = Function.update t.plain p (some (woken d l).plain) := hu ▸ plain_put hp (woken d l)
  have hchain : u.chain (s.queues.get l).head = .ok (queue (.ready l)) :=
    hu ▸ chain_put (h.threaded.path (.ready l)) (fun _ hx => h.found hx) hp (h.threaded.not_mem hfree _) (woken d l)
  -- Scores are compared after the process is woven in, which leaves them as they were.
  have hbefore : (fun x => (u.get? x).any fun e => decide (e.score ≤ (woken d l).score)) =
      fun x => (t.plain x).any (·.score ≤ d.score) := by
    funext x
    rw [hu, any_put_same hp (woken d l) rfl, plain, Option.any_map]
    rfl
  obtain ⟨before, hdef⟩ : ∃ before : Pid → Bool, before = fun x => (t.plain x).any (·.score ≤ d.score) :=
    ⟨_, rfl⟩
  obtain ⟨ahead, hahead⟩ : ∃ ahead, ahead = (queue (.ready l)).takeWhile before := ⟨_, rfl⟩
  obtain ⟨behind, hbehind⟩ : ∃ behind, behind = (queue (.ready l)).dropWhile before := ⟨_, rfl⟩
  have hsplit : queue (.ready l) = ahead ++ behind := by
    rw [hahead, hbehind, List.takeWhile_append_dropWhile]
  obtain ⟨t₁, ht₁, hn₁, hw₁, hp₁, hs₁⟩ := setNext_ok hget behind.head?
  have hnext₁ : t₁.nextOf = Function.update t.nextOf p behind.head? := by
    rw [hn₁, hu, nextOf_put hp, Function.update_idem]
  have hstore₁ : SameStore t t₁ := (hu ▸ SameStore.put t p _ : SameStore t u).trans hs₁
  have htail := h.tail_stays hsplit p
  rw [← hu, Policy.insert, ← hdef, ← hahead, ← hbehind]
  unfold Scheduler.insertByScore
  simp only [bind, Except.bind, fetch_eq_ok.mpr hget, hchain, hbefore, ← hdef, ← hahead, ← hbehind, ht₁]
  cases hlast : ahead.getLast? with
  | none =>
    -- Nobody stays ahead: the process becomes the head.
    have hnil : ahead = [] := List.getLast?_eq_none_iff.mp hlast
    refine ⟨_, _, rfl, rfl, ?_, hw₁.trans hwait, hp₁.trans hplain, hstore₁⟩
    refine h.link_between hp free hsplit ?_ (hp₁.trans hplain) ?_ htail
    · rw [hnext₁, hlast]
      rfl
    · rw [hnil]
      rfl
  | some b =>
    -- The last one ahead leads to the process.
    obtain ⟨e, he⟩ : ∃ e, t₁.get? b = some e := by
      refine Option.isSome_iff_exists.mp ?_
      rw [← plain_isSome, hp₁, plain_isSome, hsome]
      exact h.getLast_found hsplit b hlast
    obtain ⟨t₂, ht₂, hn₂, hw₂, hp₂, hs₂⟩ := setNext_ok he (some p)
    simp only [ht₂]
    refine ⟨_, _, rfl, rfl, ?_, hw₂.trans (hw₁.trans hwait), hp₂.trans (hp₁.trans hplain), hstore₁.trans hs₂⟩
    refine h.link_between hp free hsplit ?_ (hp₂.trans (hp₁.trans hplain)) (h.head_stays hsplit hlast p) htail
    rw [hn₂, hnext₁, hlast]
    rfl

theorem enqueue (h : Lists s.queues w t queue) (hp : t.get? p = some d) (free : d.link = none) :
    ∃ s' t', s.enqueue (t.put p (woken d l)) l p = .ok (s', t') ∧ s' = { s with queues := s'.queues } ∧
      Lists s'.queues w t' (Function.update queue (.ready l)
        (s.policy.insert (fun x => (t.plain x).any (·.score ≤ d.score)) (queue (.ready l)) p)) ∧
      t'.waitingOf = t.waitingOf ∧ t'.plain = Function.update t.plain p (some (woken d l).plain) ∧
      SameStore t t' := by
  rcases s.policy.eq_fifo_or_scored with hpol | hpol
  · obtain ⟨s', t', hrun, hs, hlists, rest⟩ := h.pushBack (l := l) hp free
    exact ⟨s', t', by rw [Scheduler.enqueue, hpol]; exact hrun, hs, by rw [hpol]; exact hlists, rest⟩
  · obtain ⟨s', t', hrun, hs, hlists, rest⟩ := h.insertByScore (l := l) hp free
    exact ⟨s', t', by rw [Scheduler.enqueue, hpol]; exact hrun, hs, by rw [hpol]; exact hlists, rest⟩

/-- Makes a process that is in no list ready: it is active then, and where the policy wants it in the
    queue of its level. -/
theorem makeReady (h : Lists s.queues w t queue) (hp : t.get? p = some d) (free : d.link = none)
    (alive : d.isDead = false) (hl : d.priority.level? = some l) :
    ∃ s' t', s.makeReady t p = .done () (s', t') ∧ s' = { s with queues := s'.queues } ∧
      Lists s'.queues w t' (Function.update queue (.ready l)
        (s.policy.insert (fun x => (t.plain x).any (·.score ≤ d.score)) (queue (.ready l)) p)) ∧
      t'.waitingOf = t.waitingOf ∧ t'.plain = Function.update t.plain p (some (woken d l).plain) ∧
      SameStore t t' := by
  obtain ⟨s', t', hrun, rest⟩ := h.enqueue (l := l) hp free
  refine ⟨s', t', ?_, rest⟩
  unfold Scheduler.makeReady
  simp only [hp, hl, alive, free, Option.isSome_none]
  rw [woken] at hrun
  simp [hrun]

/-- The most urgent queue that is not empty, with its head. -/
theorem front?_eq (h : Lists s.queues w t queue) :
    s.front? = Level.all.findSome? fun l => (queue (.ready l)).head?.map (l, ·) := by
  unfold Scheduler.front?
  congr 1
  funext l
  rw [← (h.threaded.path (.ready l)).start_eq]
  rfl

theorem pop (h : Lists s.queues w t queue) (hfront : s.front? = some (l, p)) :
    ∃ d s' t' rest, queue (.ready l) = p :: rest ∧ t.get? p = some d ∧ s.pop t = .ok (some p, s', t') ∧
      s' = { s with queues := s'.queues } ∧ Lists s'.queues w t' (Function.update queue (.ready l) rest) ∧
      t'.waitingOf = t.waitingOf ∧
      t'.plain = Function.update t.plain p (some { d.plain with link := none }) ∧ SameStore t t' := by
  have hhead : (queue (.ready l)).head? = some p := by
    rw [h.front?_eq] at hfront
    obtain ⟨l', -, hl'⟩ := List.exists_of_findSome?_eq_some hfront
    obtain ⟨x, hx, he⟩ := Option.map_eq_some_iff.mp hl'
    cases he
    exact hx
  obtain ⟨rest, hq⟩ := List.head?_eq_some_iff.mp hhead
  obtain ⟨d, hd⟩ := Option.isSome_iff_exists.mp (h.found (show p ∈ queue (.ready l) by simp [hq]))
  have hnext : d.next = rest.head? := by
    have hpath : Segment t.nextOf _ ([] ++ p :: rest) none := hq ▸ h.threaded.path (.ready l)
    rw [← hpath.next_of_append, nextOf, hd, Option.bind_some]
  let freed : Descriptor := { d with next := none, link := none }
  have hplain : (t.put p freed).plain = Function.update t.plain p (some { d.plain with link := none }) :=
    plain_put hd freed
  have hrem := h.threaded.remove (show queue (.ready l) = [] ++ p :: rest from hq)
  let ends : ReadyQueue := ⟨d.next, if d.next.isSome then (s.queues.get l).tail else none⟩
  -- The tail goes only with the last member.
  have htail : ends.tail = rest.getLast? := by
    show (if d.next.isSome then (s.queues.get l).tail else none) = rest.getLast?
    rw [hnext, h.tail, hq]
    cases rest <;> rfl
  refine ⟨d, s.setQueue l ends, t.put p freed, rest, hq, hd, ?_, rfl, ⟨?_, h.tail_set l htail⟩,
    waitingOf_put_same hd rfl, hplain, SameStore.put t p _⟩
  · unfold Scheduler.pop
    simp only [hfront, bind, Except.bind, fetch_eq_ok.mpr hd, update_ok hd]
    rfl
  · rw [Scheduler.setQueue, heads_set, nextOf_put hd, linkOf_of_plain_update hplain,
      show ends.head = rest.head? from hnext]
    exact hrem

end Enqueue

end Lists

end Rendezvous
