import SimpleOprf.Basis.Outcome

/-!
# Receiving over an ordered channel

A receiving process takes packets off the front of its inbox. `Receives` says
that it takes exactly the given packets and returns the value they carry,
whatever arrives behind them, so a protocol run is verified by composing its
receives in the order of the sends.
-/

namespace SimpleOprf.Basis

/-- A process over an inbox of packets in arrival order. -/
abbrev Inbox (Packet : Type) := StateT (List Packet) Outcome

namespace Inbox

variable {Packet α β : Type}

/-- `process` consumes exactly `packets` and returns `value`. -/
def Receives (process : Inbox Packet α) (packets : List Packet) (value : α) : Prop :=
  ∀ rest, process (packets ++ rest) = .ok (value, rest)

theorem Receives.pure (value : α) : (pure value : Inbox Packet α).Receives [] value := by
  intro rest
  rfl

/-- After a receive has taken its packets the next one stands in front of the rest. -/
theorem Receives.bind_apply {first : Inbox Packet α} {head : List Packet} {value : α}
    (firstReceives : first.Receives head value) (next : α → Inbox Packet β) (rest : List Packet) :
    (first >>= next) (head ++ rest) = next value rest := by
  change (first (head ++ rest) >>= fun pair => next pair.1 pair.2) = _
  rw [firstReceives, Outcome.ok_bind]

/-- Two receives in sequence consume their packets one after the other. -/
theorem Receives.bind {first : Inbox Packet α} {next : α → Inbox Packet β}
    {head tail : List Packet} {value : α} {result : β} (firstReceives : first.Receives head value)
    (nextReceives : (next value).Receives tail result) :
    (first >>= next).Receives (head ++ tail) result := by
  intro rest
  rw [List.append_assoc, firstReceives.bind_apply]
  exact nextReceives rest

/-- Post-processing what was received takes no packets. -/
theorem Receives.map {process : Inbox Packet α} {packets : List Packet} {value : α}
    (receives : process.Receives packets value) (f : α → β) :
    Receives (f <$> process) packets (f value) := by
  intro rest
  change (process (packets ++ rest) >>= fun pair => Except.ok (f pair.1, pair.2)) = _
  rw [receives, Outcome.ok_bind]

/-- A step that computes without receiving. -/
def computing (outcome : Outcome α) : Inbox Packet α := StateT.lift outcome

/-- A computing step ends the process where it fails, and leaves the inbox as it is. -/
theorem computing_bind_apply (outcome : Outcome α) (next : α → Inbox Packet β)
    (inbox : List Packet) :
    (computing outcome >>= next) inbox = outcome >>= fun value => next value inbox := by
  cases outcome with
  | error fault => rfl
  | ok value => rfl

/-- A computing step consumes nothing and may precede any receive. -/
theorem Receives.computing_bind {outcome : Outcome α} {next : α → Inbox Packet β}
    {packets : List Packet} {value : α} {result : β} (computed : outcome = .ok value)
    (nextReceives : (next value).Receives packets result) :
    (computing outcome >>= next).Receives packets result := by
  have first : (computing outcome : Inbox Packet α).Receives [] value := by
    intro rest
    rw [computed]
    rfl
  exact first.bind nextReceives

/-- Run a process `count` times, collecting the values in order. -/
def repeated (process : Inbox Packet α) : Nat → Inbox Packet (List α)
  | 0 => Pure.pure []
  | count + 1 => do
    let value ← process
    let rest ← repeated process count
    Pure.pure (value :: rest)

/-- A loop of receives consumes the packets of a list of sends. -/
theorem Receives.repeated {process : Inbox Packet α} {send : α → List Packet} (values : List α)
    (receives : ∀ value ∈ values, process.Receives (send value) value) :
    (process.repeated values.length).Receives (values.flatMap send) values := by
  induction values with
  | nil => exact Receives.pure []
  | cons value rest ih =>
    have head := receives value List.mem_cons_self
    have tail := ih fun other member => receives other (List.mem_cons_of_mem _ member)
    rw [List.flatMap_cons]
    have consed : Receives (do let rest ← process.repeated rest.length; Pure.pure (value :: rest))
        (rest.flatMap send ++ []) (value :: rest) := tail.bind (Receives.pure (value :: rest))
    rw [List.append_nil] at consed
    exact head.bind consed

/-- A process that consumes the whole inbox leaves it empty. -/
theorem Receives.run_eq {process : Inbox Packet α} {packets : List Packet} {value : α}
    (receives : process.Receives packets value) : process packets = .ok (value, []) := by
  have alone := receives []
  rwa [List.append_nil] at alone

/-! ## What a successful receive says of its value -/

/-- Every value that the process returns satisfies `post`, whatever arrives. -/
def Ensures (process : Inbox Packet α) (post : α → Prop) : Prop :=
  ∀ inbox value rest, process inbox = .ok (value, rest) → post value

theorem Ensures.pure {post : α → Prop} {value : α} (holds : post value) :
    (pure value : Inbox Packet α).Ensures post := by
  intro inbox result rest ran
  cases ran
  exact holds

/-- What the first part ensures, the second may use. -/
theorem Ensures.bind {first : Inbox Packet α} {next : α → Inbox Packet β} {mid : α → Prop}
    {post : β → Prop} (head : first.Ensures mid)
    (tail : ∀ value, mid value → (next value).Ensures post) : (first >>= next).Ensures post := by
  intro inbox result rest ran
  change (first inbox >>= fun pair => next pair.1 pair.2) = _ at ran
  obtain ⟨⟨value, behind⟩, started, ran⟩ := Outcome.bind_eq_ok.mp ran
  exact tail value (head inbox value behind started) behind result rest ran

/-- A step whose value does not matter. -/
theorem Ensures.skip {first : Inbox Packet α} {next : α → Inbox Packet β} {post : β → Prop}
    (tail : ∀ value, (next value).Ensures post) : (first >>= next).Ensures post := by
  have anything : first.Ensures fun _ => True := fun _ _ _ _ => trivial
  exact anything.bind fun value _ => tail value

/-- A computation between two receives ensures its own result. -/
theorem ensures_computing (outcome : Outcome α) :
    (computing outcome : Inbox Packet α).Ensures fun value => outcome = .ok value := by
  intro inbox value rest ran
  change (outcome >>= fun value => Except.ok (value, inbox)) = _ at ran
  obtain ⟨found, computed, same⟩ := Outcome.bind_eq_ok.mp ran
  cases same
  exact computed

/-- A loop of receives returns `count` values, each as the process ensures. -/
theorem Ensures.repeated {process : Inbox Packet α} {post : α → Prop} (each : process.Ensures post)
    (count : Nat) :
    (process.repeated count).Ensures fun values =>
      values.length = count ∧ ∀ value ∈ values, post value := by
  induction count with
  | zero => exact Ensures.pure ⟨rfl, fun value impossible => absurd impossible List.not_mem_nil⟩
  | succ count ih =>
    refine each.bind fun value holds => ih.bind fun rest counted => Ensures.pure ⟨?_, ?_⟩
    · rw [List.length_cons, counted.1]
    · intro other member
      rcases List.mem_cons.mp member with rfl | later
      · exact holds
      · exact counted.2 other later

end Inbox

end SimpleOprf.Basis
