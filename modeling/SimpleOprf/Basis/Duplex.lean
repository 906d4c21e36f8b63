import Mathlib.Logic.Function.Basic
import Mathlib.Logic.Relation

/-!
# Two parties over FIFO channels

Two deterministic parties exchange messages on channels in either direction. A
channel keeps everything that was sent on it and how much of that was received.
Steps of different parties commute, so one schedule that comes to an end decides
what every other schedule can do.

`Leads` builds such a schedule step by step, `Stuck` and `Deadlocked` describe
its end, and an invariant of both parties' actions is one of every run.
-/

namespace SimpleOprf.Basis

/-- What a party does next. A receive waits for a message. -/
inductive Action (C M σ : Type) where
  | finished
  | failed
  | internal (next : σ)
  | send (c : C) (message : M) (next : σ)
  | receive (c : C) (next : M → σ)

/-- A channel with its history. -/
structure Fifo (M : Type) where
  sent : List M
  received : Nat
deriving DecidableEq, Repr

/-- The message in flight that is received next. -/
def Fifo.head? {M : Type} (channel : Fifo M) : Option M := channel.sent[channel.received]?

/-- Nothing is in flight. -/
def Fifo.Idle {M : Type} (channel : Fifo M) : Prop := channel.received = channel.sent.length

/-- An idle channel has nothing to receive. -/
theorem Fifo.Idle.head?_eq_none {M : Type} {channel : Fifo M} (idle : channel.Idle) :
    channel.head? = none :=
  List.getElem?_eq_none (Nat.le_of_eq idle.symm)

section Channels

variable {C M : Type} [DecidableEq C]

/-- The channels after a send. -/
def pushOn (channels : C → Fifo M) (c : C) (message : M) : C → Fifo M :=
  Function.update channels c ⟨(channels c).sent ++ [message], (channels c).received⟩

/-- The channels after a receive. -/
def popOn (channels : C → Fifo M) (c : C) : C → Fifo M :=
  Function.update channels c ⟨(channels c).sent, (channels c).received + 1⟩

/-- A send and a receive on the same channel commute. -/
theorem popOn_pushOn (channels : C → Fifo M) (c d : C) (message : M) :
    popOn (pushOn channels c message) d = pushOn (popOn channels d) c message := by
  by_cases same : c = d
  · subst same
    simp [popOn, pushOn]
  · simp [popOn, pushOn, Function.update_comm same, Function.update_of_ne same,
      Function.update_of_ne (Ne.symm same)]

/-- Sending does not change which message is received next. -/
theorem head?_pushOn {channels : C → Fifo M} {d : C} {next : M}
    (found : (channels d).head? = some next) (c : C) (message : M) :
    (pushOn channels c message d).head? = some next := by
  by_cases same : d = c
  · subst same
    simp only [pushOn, Function.update_self, Fifo.head?] at found ⊢
    rw [List.getElem?_append_left (List.getElem?_eq_some_iff.mp found).1]
    exact found
  · rwa [pushOn, Function.update_of_ne same]

theorem pushOn_of_ne (channels : C → Fifo M) {c d : C} (other : d ≠ c) (message : M) :
    pushOn channels c message d = channels d :=
  Function.update_of_ne other _ _

theorem popOn_of_ne (channels : C → Fifo M) {c d : C} (other : d ≠ c) :
    popOn channels c d = channels d :=
  Function.update_of_ne other _ _

/-- A message on an idle channel is received next, and then the channel is idle. -/
theorem Fifo.Idle.pushOn {channels : C → Fifo M} {c : C} (idle : (channels c).Idle) (message : M) :
    (pushOn channels c message c).head? = some message ∧
      (popOn (pushOn channels c message) c c).Idle := by
  unfold Idle at idle
  constructor
  · simp [Basis.pushOn, head?, idle]
  · simp [Basis.pushOn, popOn, Idle, idle]

end Channels

/-- Two parties with the channels to each of them. -/
structure Net (C M σ τ : Type) where
  left : σ
  right : τ
  toRight : C → Fifo M
  toLeft : C → Fifo M

/-- Every state after an action, with the channel that it receives from. -/
def Action.Next {C M σ : Type} (p : Option C → σ → Prop) : Action C M σ → Prop
  | .finished => True
  | .failed => True
  | .internal next => p none next
  | .send _ _ next => p none next
  | .receive c next => ∀ message, p (some c) (next message)

/-- The effect of an action on the party and its outgoing and incoming channels. -/
def Action.perform {C M σ : Type} [DecidableEq C] (outgoing incoming : C → Fifo M) :
    Action C M σ → Option (σ × (C → Fifo M) × (C → Fifo M))
  | .finished => none
  | .failed => none
  | .internal next => some (next, outgoing, incoming)
  | .send c message next => some (next, pushOn outgoing c message, incoming)
  | .receive c next =>
    (incoming c).head?.map fun message => (next message, outgoing, popOn incoming c)

section Perform

variable {C M σ : Type} [DecidableEq C] {a : Action C M σ} {s : σ}
  {outgoing incoming outgoing' incoming' : C → Fifo M}

/-- A party does the same when the other one has sent a message. -/
theorem Action.perform_pushOn
    (performed : a.perform outgoing incoming = some (s, outgoing', incoming')) (c : C)
    (message : M) :
    a.perform outgoing (pushOn incoming c message) =
      some (s, outgoing', pushOn incoming' c message) := by
  cases a with
  | finished => cases performed
  | failed => cases performed
  | internal next => cases performed; rfl
  | send d own next => cases performed; rfl
  | receive d next =>
    obtain ⟨head, found, same⟩ := Option.map_eq_some_iff.mp performed
    cases same
    simp only [perform, head?_pushOn found, Option.map_some, popOn_pushOn]

/-- A party does the same when the other one has received a message. -/
theorem Action.perform_popOn
    (performed : a.perform outgoing incoming = some (s, outgoing', incoming')) (c : C) :
    a.perform (popOn outgoing c) incoming = some (s, popOn outgoing' c, incoming') := by
  cases a with
  | finished => cases performed
  | failed => cases performed
  | internal next => cases performed; rfl
  | send d own next =>
    cases performed
    simp only [perform, popOn_pushOn]
  | receive d next =>
    obtain ⟨head, found, same⟩ := Option.map_eq_some_iff.mp performed
    cases same
    simp only [perform, found, Option.map_some]

/-- A step leaves the next message to the other party in place. -/
theorem Action.head?_perform
    (performed : a.perform outgoing incoming = some (s, outgoing', incoming')) {d : C} {head : M}
    (found : (outgoing d).head? = some head) : (outgoing' d).head? = some head := by
  cases a with
  | finished => cases performed
  | failed => cases performed
  | internal next => cases performed; exact found
  | send c own next => cases performed; exact head?_pushOn found c own
  | receive c next =>
    obtain ⟨own, -, same⟩ := Option.map_eq_some_iff.mp performed
    cases same
    exact found

/-- How a performed action moves its party. -/
theorem Action.Next.of_perform {p : Option C → σ → Prop} (all : a.Next p)
    (performed : a.perform outgoing incoming = some (s, outgoing', incoming')) :
    (p none s ∧ incoming' = incoming) ∨
      ∃ c message, p (some c) s ∧ (incoming c).head? = some message ∧
        incoming' = popOn incoming c := by
  cases a with
  | finished => cases performed
  | failed => cases performed
  | internal next => cases performed; exact .inl ⟨all, rfl⟩
  | send d own next => cases performed; exact .inl ⟨all, rfl⟩
  | receive d next =>
    obtain ⟨head, found, same⟩ := Option.map_eq_some_iff.mp performed
    cases same
    exact .inr ⟨d, head, all head, found, rfl⟩

end Perform

section Steps

variable {C M σ τ : Type} [DecidableEq C] (leftNext : σ → Action C M σ)
  (rightNext : τ → Action C M τ)

/-- A step of the left party, if it has one. -/
def Net.stepLeft (s : Net C M σ τ) : Option (Net C M σ τ) :=
  ((leftNext s.left).perform s.toRight s.toLeft).map fun (left, toRight, toLeft) =>
    { s with left, toRight, toLeft }

/-- A step of the right party, if it has one. -/
def Net.stepRight (s : Net C M σ τ) : Option (Net C M σ τ) :=
  ((rightNext s.right).perform s.toLeft s.toRight).map fun (right, toLeft, toRight) =>
    { s with right, toRight, toLeft }

/-- Either party moves. -/
def Net.Step (s t : Net C M σ τ) : Prop :=
  s.stepLeft leftNext = some t ∨ s.stepRight rightNext = some t

/-- The states after any number of steps, in any order of the parties. -/
abbrev Net.Reaches : Net C M σ τ → Net C M σ τ → Prop :=
  Relation.ReflTransGen (Net.Step leftNext rightNext)

/-- Both parties have finished. -/
def Net.Finished (s : Net C M σ τ) : Prop :=
  leftNext s.left = .finished ∧ rightNext s.right = .finished

/-- Neither party can move. -/
def Net.Stuck (s : Net C M σ τ) : Prop :=
  s.stepLeft leftNext = none ∧ s.stepRight rightNext = none

/-- A party is done, or waits for a message that is not in flight. -/
def Action.Halted {C M σ : Type} (incoming : C → Fifo M) (a : Action C M σ) : Prop :=
  a = .finished ∨ ∃ c next, a = .receive c next ∧ (incoming c).head? = none

/-- Neither party can move, and not both are done. -/
structure Net.Deadlocked (s : Net C M σ τ) : Prop where
  left : (leftNext s.left).Halted s.toLeft
  right : (rightNext s.right).Halted s.toRight
  unfinished : ¬s.Finished leftNext rightNext

/-- Both parties are done, or one has failed. -/
def Net.Settled (s : Net C M σ τ) : Prop :=
  s.Finished leftNext rightNext ∨ leftNext s.left = .failed ∨ rightNext s.right = .failed

variable {leftNext rightNext} {s t u : Net C M σ τ}

/-- Steps of different parties commute. -/
theorem Net.step_comm (left : s.stepLeft leftNext = some t)
    (right : s.stepRight rightNext = some u) :
    ∃ v, t.stepRight rightNext = some v ∧ u.stepLeft leftNext = some v := by
  obtain ⟨⟨l, out, inc⟩, performed, rfl⟩ := Option.map_eq_some_iff.mp left
  obtain ⟨⟨r, out', inc'⟩, performed', rfl⟩ := Option.map_eq_some_iff.mp right
  simp only [stepLeft, stepRight]
  cases second : rightNext s.right with
  | finished => rw [second] at performed'; cases performed'
  | failed => rw [second] at performed'; cases performed'
  | internal next =>
    rw [second] at performed'
    cases performed'
    exact ⟨_, rfl, by rw [performed]; rfl⟩
  | send c message next =>
    rw [second] at performed'
    cases performed'
    exact ⟨_, rfl, by rw [Action.perform_pushOn performed]; rfl⟩
  | receive c next =>
    rw [second] at performed'
    obtain ⟨head, found, same⟩ := Option.map_eq_some_iff.mp performed'
    cases same
    refine ⟨_, ?_, by rw [Action.perform_popOn performed]; rfl⟩
    simp only [Action.perform, Action.head?_perform performed found, Option.map_some]

/-- However a run went on, two runs from one state can be brought together. -/
theorem Net.join (first : s.Reaches leftNext rightNext t) (second : s.Reaches leftNext rightNext u) :
    ∃ v, t.Reaches leftNext rightNext v ∧ u.Reaches leftNext rightNext v := by
  refine Relation.church_rosser (fun a b c toB toC => ?_) first second
  rcases toB, toC with ⟨left | right, left' | right'⟩
  · obtain rfl := Option.some.inj (left.symm.trans left')
    exact ⟨b, .refl, .refl⟩
  · obtain ⟨v, byRight, byLeft⟩ := step_comm left right'
    exact ⟨v, .single (.inr byRight), .single (.inl byLeft)⟩
  · obtain ⟨v, byRight, byLeft⟩ := step_comm left' right
    exact ⟨v, .single (.inl byLeft), .single (.inr byRight)⟩
  · obtain rfl := Option.some.inj (right.symm.trans right')
    exact ⟨b, .refl, .refl⟩

/-- A stuck net goes nowhere. -/
theorem Net.Stuck.reaches_eq (stuck : t.Stuck leftNext rightNext)
    (reaches : t.Reaches leftNext rightNext u) : u = t := by
  refine (Relation.ReflTransGen.cases_head reaches).elim Eq.symm ?_
  rintro ⟨v, left | right, -⟩
  · rw [stuck.1] at left
    cases left
  · rw [stuck.2] at right
    cases right

/-- Where some schedule cannot go on, every other one can be brought. -/
theorem Net.Stuck.of_reaches (stuck : t.Stuck leftNext rightNext)
    (end_ : s.Reaches leftNext rightNext t) (other : s.Reaches leftNext rightNext u) :
    u.Reaches leftNext rightNext t := by
  obtain ⟨v, still, later⟩ := join end_ other
  rwa [stuck.reaches_eq still] at later

/-- Finished parties have no step. -/
theorem Net.Finished.stuck (done : t.Finished leftNext rightNext) :
    t.Stuck leftNext rightNext :=
  ⟨by rw [stepLeft, done.1]; rfl, by rw [stepRight, done.2]; rfl⟩

/-- A finished net goes nowhere. -/
theorem Net.Finished.reaches_eq (done : t.Finished leftNext rightNext)
    (reaches : t.Reaches leftNext rightNext u) : u = t :=
  done.stuck.reaches_eq reaches

/-- A party only appends to its outgoing channels, and only receives on the others. -/
theorem Action.channels_perform {C M σ : Type} [DecidableEq C] {a : Action C M σ} {s : σ}
    {outgoing incoming outgoing' incoming' : C → Fifo M}
    (performed : a.perform outgoing incoming = some (s, outgoing', incoming')) (c : C) :
    (outgoing c).sent <+: (outgoing' c).sent ∧ (outgoing' c).received = (outgoing c).received ∧
      (incoming' c).sent = (incoming c).sent := by
  cases a with
  | finished => cases performed
  | failed => cases performed
  | internal next => cases performed; exact ⟨List.prefix_rfl, rfl, rfl⟩
  | send d own next =>
    cases performed
    by_cases same : c = d
    · subst same
      simp [pushOn]
    · rw [pushOn_of_ne _ same]
      exact ⟨List.prefix_rfl, rfl, rfl⟩
  | receive d next =>
    obtain ⟨head, -, same⟩ := Option.map_eq_some_iff.mp performed
    cases same
    refine ⟨List.prefix_rfl, rfl, ?_⟩
    by_cases same : c = d
    · subst same
      simp [popOn]
    · rw [popOn_of_ne _ same]

/-- What was sent stays sent. -/
theorem Net.sent_mono (reaches : s.Reaches leftNext rightNext t) (c : C) :
    (s.toRight c).sent <+: (t.toRight c).sent := by
  induction reaches with
  | refl => exact List.prefix_rfl
  | tail _ step ih =>
    refine ih.trans ?_
    rcases step with left | right
    · obtain ⟨⟨l, out, inc⟩, performed, rfl⟩ := Option.map_eq_some_iff.mp left
      exact (Action.channels_perform performed c).1
    · obtain ⟨⟨r, out, inc⟩, performed, rfl⟩ := Option.map_eq_some_iff.mp right
      exact (Action.channels_perform performed c).2.2 ▸ List.prefix_rfl

/-- When some schedule ends with both parties done, every other one can be brought
to the same end. -/
theorem Net.Finished.of_reaches (done : t.Finished leftNext rightNext)
    (end_ : s.Reaches leftNext rightNext t) (other : s.Reaches leftNext rightNext u) :
    u.Reaches leftNext rightNext t :=
  done.stuck.of_reaches end_ other

/-- What every action of a party preserves relates it to every later state. -/
theorem Net.left_related {r : σ → σ → Prop} (refl : ∀ l, r l l)
    (trans : ∀ {a b c}, r a b → r b c → r a c) (keeps : ∀ l, (leftNext l).Next fun _ next => r l next)
    (reaches : s.Reaches leftNext rightNext t) : r s.left t.left := by
  induction reaches with
  | refl => exact refl s.left
  | tail _ step ih =>
    rcases step with left | right
    · obtain ⟨⟨l, out, inc⟩, performed, rfl⟩ := Option.map_eq_some_iff.mp left
      exact trans ih (((keeps _).of_perform performed).elim And.left fun ⟨_, _, kept, _⟩ => kept)
    · obtain ⟨moved, -, rfl⟩ := Option.map_eq_some_iff.mp right
      exact ih

/-- A preorder that every action of the right party respects relates its state along a
run. -/
theorem Net.right_related {r : τ → τ → Prop} (refl : ∀ l, r l l)
    (trans : ∀ {a b c}, r a b → r b c → r a c) (keeps : ∀ l, (rightNext l).Next fun _ next => r l next)
    (reaches : s.Reaches leftNext rightNext t) : r s.right t.right := by
  induction reaches with
  | refl => exact refl s.right
  | tail _ step ih =>
    rcases step with left | right
    · obtain ⟨moved, -, rfl⟩ := Option.map_eq_some_iff.mp left
      exact ih
    · obtain ⟨⟨l, out, inc⟩, performed, rfl⟩ := Option.map_eq_some_iff.mp right
      exact trans ih (((keeps _).of_perform performed).elim And.left fun ⟨_, _, kept, _⟩ => kept)

/-- A party that cannot move stays where it is. -/
theorem Net.left_eq (stopped : ∀ outgoing incoming, (leftNext s.left).perform outgoing incoming = none)
    (reaches : s.Reaches leftNext rightNext t) : t.left = s.left := by
  induction reaches with
  | refl => rfl
  | tail _ step ih =>
    rcases step with left | right
    · rw [stepLeft, ih, stopped] at left
      cases left
    · obtain ⟨moved, -, rfl⟩ := Option.map_eq_some_iff.mp right
      exact ih

/-- A right party that cannot move stays as it is. -/
theorem Net.right_eq
    (stopped : ∀ outgoing incoming, (rightNext s.right).perform outgoing incoming = none)
    (reaches : s.Reaches leftNext rightNext t) : t.right = s.right := by
  induction reaches with
  | refl => rfl
  | tail _ step ih =>
    rcases step with left | right
    · obtain ⟨moved, -, rfl⟩ := Option.map_eq_some_iff.mp left
      exact ih
    · rw [stepRight, ih, stopped] at right
      cases right

/-- A failed left party stays failed. -/
theorem Net.failed_left (failed : leftNext s.left = .failed)
    (reaches : s.Reaches leftNext rightNext t) : leftNext t.left = .failed := by
  rwa [left_eq (fun _ _ => by rw [failed]; rfl) reaches]

/-- A failed right party stays failed. -/
theorem Net.failed_right (failed : rightNext s.right = .failed)
    (reaches : s.Reaches leftNext rightNext t) : rightNext t.right = .failed := by
  rwa [right_eq (fun _ _ => by rw [failed]; rfl) reaches]

/-- A halted action is not performed. -/
theorem Action.Halted.perform_eq_none {C M σ : Type} [DecidableEq C] {a : Action C M σ}
    {outgoing incoming : C → Fifo M} (halted : a.Halted incoming) :
    a.perform outgoing incoming = none := by
  rcases halted with rfl | ⟨c, next, rfl, empty⟩
  · rfl
  · rw [perform, empty, Option.map_none]

/-- A halted action is no failure. -/
theorem Action.Halted.ne_failed {C M σ : Type} {a : Action C M σ} {incoming : C → Fifo M}
    (halted : a.Halted incoming) : a ≠ .failed := by
  rcases halted with rfl | ⟨c, next, rfl, -⟩
  · exact nofun
  · exact nofun

/-- A deadlocked net goes nowhere. -/
theorem Net.Deadlocked.reaches_eq (deadlocked : s.Deadlocked leftNext rightNext)
    (reaches : s.Reaches leftNext rightNext t) : t = s :=
  Stuck.reaches_eq ⟨by rw [stepLeft, deadlocked.left.perform_eq_none]; rfl,
    by rw [stepRight, deadlocked.right.perform_eq_none]; rfl⟩ reaches

/-- When some schedule ends with both parties done or one failed, no schedule ends
in a deadlock. -/
theorem Net.Settled.not_deadlocked (settled : t.Settled leftNext rightNext)
    (end_ : s.Reaches leftNext rightNext t) (other : s.Reaches leftNext rightNext u) :
    ¬u.Deadlocked leftNext rightNext := by
  intro deadlocked
  obtain ⟨v, fromEnd, fromOther⟩ := join end_ other
  obtain rfl := deadlocked.reaches_eq fromOther
  rcases settled with done | failed | failed
  · obtain rfl := done.reaches_eq fromEnd
    exact deadlocked.unfinished done
  · exact deadlocked.left.ne_failed (failed_left failed fromEnd)
  · exact deadlocked.right.ne_failed (failed_right failed fromEnd)

/-! ## Schedules -/

variable (leftNext rightNext) in
/-- Some schedule leads to a state as wanted. -/
def Net.Leads (wanted : Net C M σ τ → Prop) (s : Net C M σ τ) : Prop :=
  ∃ t, s.Reaches leftNext rightNext t ∧ wanted t

variable {wanted : Net C M σ τ → Prop}

/-- What holds now is led to. -/
theorem Net.Leads.here (holds : wanted s) : s.Leads leftNext rightNext wanted := ⟨s, .refl, holds⟩

theorem Net.Leads.trans {between : Net C M σ τ → Prop} (first : s.Leads leftNext rightNext between)
    (later : ∀ t, between t → t.Leads leftNext rightNext wanted) :
    s.Leads leftNext rightNext wanted := by
  obtain ⟨t, reaches, holds⟩ := first
  obtain ⟨final, reaches', holds'⟩ := later t holds
  exact ⟨final, reaches.trans reaches', holds'⟩

/-- A step of the left party on the way. -/
theorem Net.Leads.left (step : s.stepLeft leftNext = some t)
    (later : t.Leads leftNext rightNext wanted) : s.Leads leftNext rightNext wanted := by
  obtain ⟨final, reaches, holds⟩ := later
  exact ⟨final, .head (.inl step) reaches, holds⟩

/-- A step of the right party on the way. -/
theorem Net.Leads.right (step : s.stepRight rightNext = some t)
    (later : t.Leads leftNext rightNext wanted) : s.Leads leftNext rightNext wanted := by
  obtain ⟨final, reaches, holds⟩ := later
  exact ⟨final, .head (.inr step) reaches, holds⟩

section Rules

variable {l : σ} {r : τ} {toRight toLeft : C → Fifo M}

/-- The left party computes on the way. -/
theorem Net.Leads.left_internal {next : σ} (now : leftNext l = .internal next)
    (later : Net.Leads leftNext rightNext wanted ⟨next, r, toRight, toLeft⟩) :
    Net.Leads leftNext rightNext wanted ⟨l, r, toRight, toLeft⟩ :=
  .left (by simp only [stepLeft, now, Action.perform, Option.map_some]) later

/-- The left party sends on the way. -/
theorem Net.Leads.left_send {c : C} {message : M} {next : σ}
    (now : leftNext l = .send c message next)
    (later : Net.Leads leftNext rightNext wanted ⟨next, r, pushOn toRight c message, toLeft⟩) :
    Net.Leads leftNext rightNext wanted ⟨l, r, toRight, toLeft⟩ :=
  .left (by simp only [stepLeft, now, Action.perform, Option.map_some]) later

/-- The left party receives on the way. -/
theorem Net.Leads.left_receive {c : C} {message : M} {next : M → σ}
    (now : leftNext l = .receive c next) (found : (toLeft c).head? = some message)
    (later : Net.Leads leftNext rightNext wanted ⟨next message, r, toRight, popOn toLeft c⟩) :
    Net.Leads leftNext rightNext wanted ⟨l, r, toRight, toLeft⟩ :=
  .left (by simp only [stepLeft, now, Action.perform, found, Option.map_some]) later

/-- The right party computes on the way. -/
theorem Net.Leads.right_internal {next : τ} (now : rightNext r = .internal next)
    (later : Net.Leads leftNext rightNext wanted ⟨l, next, toRight, toLeft⟩) :
    Net.Leads leftNext rightNext wanted ⟨l, r, toRight, toLeft⟩ :=
  .right (by simp only [stepRight, now, Action.perform, Option.map_some]) later

/-- The right party sends on the way. -/
theorem Net.Leads.right_send {c : C} {message : M} {next : τ}
    (now : rightNext r = .send c message next)
    (later : Net.Leads leftNext rightNext wanted ⟨l, next, toRight, pushOn toLeft c message⟩) :
    Net.Leads leftNext rightNext wanted ⟨l, r, toRight, toLeft⟩ :=
  .right (by simp only [stepRight, now, Action.perform, Option.map_some]) later

/-- The right party receives on the way. -/
theorem Net.Leads.right_receive {c : C} {message : M} {next : M → τ}
    (now : rightNext r = .receive c next) (found : (toRight c).head? = some message)
    (later : Net.Leads leftNext rightNext wanted ⟨l, next message, popOn toRight c, toLeft⟩) :
    Net.Leads leftNext rightNext wanted ⟨l, r, toRight, toLeft⟩ :=
  .right (by simp only [stepRight, now, Action.perform, found, Option.map_some]) later

end Rules

variable (leftNext rightNext) in
/-- Let the left party move while it can, else the right one, some number of times. -/
def Net.schedule : Nat → Net C M σ τ → Net C M σ τ
  | 0, s => s
  | n + 1, s => schedule n (((s.stepLeft leftNext).or (s.stepRight rightNext)).getD s)

/-- The schedule is a run. -/
theorem Net.reaches_schedule (n : Nat) (s : Net C M σ τ) :
    s.Reaches leftNext rightNext (s.schedule leftNext rightNext n) := by
  induction n generalizing s with
  | zero => exact .refl
  | succ n ih =>
    rw [schedule]
    cases left : s.stepLeft leftNext with
    | some t => exact .head (.inl left) (ih t)
    | none =>
      cases right : s.stepRight rightNext with
      | some t => exact .head (.inr right) (ih t)
      | none => exact ih s

end Steps

end SimpleOprf.Basis
