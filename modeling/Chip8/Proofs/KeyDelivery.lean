import Chip8.Operation
import Chip8.Proofs.Footprint

/-!
# Presses and deliveries

A user who wants to know which keys a program has yet to be told of can keep an account: every
press of a key is entered, and so is every key that an executed key wait puts into a register.
A key is outstanding if it was pressed and has not been delivered since.  This file shows that
the keys that are pending in a machine are always the outstanding ones, in the order of their
latest presses.  So no press gets lost and none is delivered twice, however the operations on
the machine follow on each other.

## Key results

- `KeyAccount.mem_outstanding_iff`, `KeyAccount.pairwise_outstanding`: which keys are outstanding,
  and in which order
- `Machine.step_of_pending_nil`, `Machine.step_of_pending_cons`: a key wait waits until a key is
  pending, and then takes the latest one
- `Machine.pending_perform`, `Machine.pending_after`: the pending keys are the outstanding ones
- `Machine.covered_after`: only outstanding keys are delivered
- `Machine.delivers_each_press_once`: what this says of presses and deliveries
-/

namespace Chip8

/-! ## Presses -/

namespace KeyLatch

/-- The pending keys after another one went down: it is in front of the others. -/
def toFront (pending : List Key) (key : Key) : List Key := key :: pending.erase key

theorem pending_press (l : KeyLatch) (byte : UInt8) :
    (l.press byte).pending = (Key.ofByte? byte).toList.foldl toFront l.pending := by
  unfold press
  cases Key.ofByte? byte <;> rfl

/-- Each key that goes down comes to the front. -/
theorem pending_foldl_press (l : KeyLatch) (bytes : List UInt8) :
    (bytes.foldl press l).pending = (bytes.filterMap Key.ofByte?).foldl toFront l.pending := by
  induction bytes generalizing l with
  | nil => rfl
  | cons byte bytes ih =>
    rw [List.foldl_cons, ih, pending_press, List.filterMap_cons]
    cases Key.ofByte? byte <;> rfl

end KeyLatch

/-! ## Accounts -/

/-- The keys that go down in an event, the first one in front.  Bytes that name no key are
    ignored. -/
def KeyEvent.pressedKeys : KeyEvent → List Key
  | press byte => (Key.ofByte? byte).toList
  | release _ => []
  | poll report => report.pressed.filterMap Key.ofByte?

/-- What is entered in an account. -/
inductive KeyEntry where
  | pressed (key : Key)
  | delivered (key : Key)
  deriving DecidableEq, Repr

/-- Entries, the latest in front. -/
abbrev KeyAccount : Type := List KeyEntry

namespace KeyAccount

/-- An entry was made, and some other one has not been made since. -/
def NoneSince (account : KeyAccount) (entry other : KeyEntry) : Prop :=
  ∃ later earlier, account = later ++ entry :: earlier ∧ other ∉ later

/-- A key was pressed and has not been delivered since. -/
def Outstanding (account : KeyAccount) (key : Key) : Prop :=
  account.NoneSince (.pressed key) (.delivered key)

/-- The latest press of a key comes after every press of another one. -/
def PressedAfter (account : KeyAccount) (key other : Key) : Prop :=
  account.NoneSince (.pressed key) (.pressed other)

/-- Every key that was delivered was outstanding until then. -/
def Covered (account : KeyAccount) : Prop :=
  ∀ key later earlier, account = later ++ .delivered key :: earlier → Outstanding earlier key

/-- The outstanding keys, the latest press in front. -/
def outstanding : KeyAccount → List Key
  | [] => []
  | .pressed key :: earlier => key :: (outstanding earlier).erase key
  | .delivered key :: earlier => (outstanding earlier).erase key

theorem noneSince_cons_iff {e entry other : KeyEntry} {account : KeyAccount} :
    NoneSince (e :: account) entry other ↔
      e = entry ∨ e ≠ other ∧ account.NoneSince entry other := by
  constructor
  · rintro ⟨later, earlier, heq, hother⟩
    cases later with
    | nil =>
      cases heq
      exact .inl rfl
    | cons first later =>
      cases heq
      rw [List.mem_cons, not_or] at hother
      exact .inr ⟨Ne.symm hother.1, later, earlier, rfl, hother.2⟩
  · rintro (rfl | ⟨hne, later, earlier, rfl, hother⟩)
    · exact ⟨[], account, rfl, List.not_mem_nil⟩
    · exact ⟨e :: later, earlier, rfl, List.not_mem_cons_of_ne_of_not_mem (Ne.symm hne) hother⟩

/-- Entries that are not about a key leave it outstanding or not, as it was. -/
theorem outstanding_append_iff {entries account : KeyAccount} {key : Key}
    (hpressed : .pressed key ∉ entries) (hdelivered : .delivered key ∉ entries) :
    Outstanding (entries ++ account) key ↔ account.Outstanding key := by
  induction entries with
  | nil => rfl
  | cons e entries ih =>
    rw [List.mem_cons, not_or] at hpressed hdelivered
    rw [← ih hpressed.2 hdelivered.2, List.cons_append, Outstanding, noneSince_cons_iff]
    simp [Outstanding, Ne.symm hpressed.1, Ne.symm hdelivered.1]

/-- A key that is outstanding was pressed after it was delivered. -/
theorem Outstanding.mem_of_append {between earlier : KeyAccount} {key : Key}
    (h : Outstanding (between ++ .delivered key :: earlier) key) : .pressed key ∈ between := by
  induction between with
  | nil =>
    -- Right after the delivery it is not outstanding.
    rcases noneSince_cons_iff.1 h with heq | ⟨hne, -⟩
    · exact nomatch heq
    · exact absurd rfl hne
  | cons e between ih =>
    rcases noneSince_cons_iff.1 h with rfl | ⟨-, hbetween⟩
    · exact List.mem_cons_self
    · exact List.mem_cons_of_mem _ (ih hbetween)

theorem covered_nil : Covered [] := by
  intro key later earlier heq
  exact absurd heq (by simp)

theorem covered_cons {e : KeyEntry} {account : KeyAccount} (h : Covered account)
    (he : ∀ key, e = .delivered key → account.Outstanding key) : Covered (e :: account) := by
  intro key later earlier heq
  cases later with
  -- The new entry is the only one that was not covered before.
  | nil =>
    cases heq
    exact he key rfl
  | cons first later =>
    cases heq
    exact h key later earlier rfl

/-- Presses need no cover. -/
theorem covered_append (keys : List Key) {account : KeyAccount} (h : Covered account) :
    Covered (keys.map .pressed ++ account) := by
  induction keys with
  | nil => exact h
  | cons key keys ih => exact covered_cons ih nofun

theorem nodup_outstanding (account : KeyAccount) : account.outstanding.Nodup := by
  induction account with
  | nil => exact List.nodup_nil
  | cons e account ih =>
    cases e with
    | pressed key => exact List.nodup_cons.2 ⟨ih.not_mem_erase, ih.erase key⟩
    | delivered key => exact ih.erase key

theorem mem_outstanding_iff {account : KeyAccount} {key : Key} :
    key ∈ account.outstanding ↔ account.Outstanding key := by
  induction account with
  | nil =>
    refine ⟨nofun, ?_⟩
    rintro ⟨later, earlier, heq, -⟩
    exact absurd heq (by simp)
  | cons e account ih =>
    have hnodup := nodup_outstanding account
    rw [Outstanding, noneSince_cons_iff]
    cases e with
    | pressed k =>
      rw [outstanding, List.mem_cons, hnodup.mem_erase_iff, ih]
      by_cases hk : key = k
      · simp [hk]
      · simp [hk, Ne.symm hk, Outstanding]
    | delivered k =>
      rw [outstanding, hnodup.mem_erase_iff, ih]
      simp [Outstanding, eq_comm]

/-- Outstanding keys are in the order of their latest presses. -/
theorem pairwise_outstanding (account : KeyAccount) :
    account.outstanding.Pairwise account.PressedAfter := by
  induction account with
  | nil => exact List.Pairwise.nil
  | cons e account ih =>
    have hnodup := nodup_outstanding account
    cases e with
    | pressed k =>
      refine List.pairwise_cons.2 ⟨fun other _ => noneSince_cons_iff.2 (.inl rfl), ?_⟩
      -- A press that is later than another one stays so when keys are taken out in between.
      refine (ih.sublist (List.erase_sublist)).imp_of_mem fun _ hother hafter => ?_
      refine noneSince_cons_iff.2 (.inr ⟨?_, hafter⟩)
      -- The new entry is a press of `k`, which is not among the others any more.
      intro heq
      cases heq
      exact hnodup.not_mem_erase hother
    | delivered k =>
      exact (ih.sublist (List.erase_sublist)).imp fun hafter =>
        noneSince_cons_iff.2 (.inr ⟨by simp, hafter⟩)

/-- The first outstanding key was pressed later than any other one. -/
theorem pressedAfter_of_outstanding_eq_cons {account : KeyAccount} {key other : Key}
    {rest : List Key} (h : account.outstanding = key :: rest) (hother : account.Outstanding other)
    (hne : other ≠ key) : account.PressedAfter key other := by
  have hpairwise := account.pairwise_outstanding
  rw [h, List.pairwise_cons] at hpairwise
  rw [← mem_outstanding_iff, h, List.mem_cons] at hother
  exact hpairwise.1 other (hother.resolve_left hne)

/-- Keys that were pressed one after the other, the latest in front, are outstanding. -/
theorem outstanding_map_pressed {keys : List Key} (h : keys.Nodup) :
    outstanding (keys.map .pressed) = keys := by
  induction keys with
  | nil => rfl
  | cons key keys ih =>
    obtain ⟨hnew, hnodup⟩ := List.nodup_cons.1 h
    rw [List.map_cons, outstanding, ih hnodup, List.erase_of_not_mem hnew]

/-- Each key that goes down moves to the front of the outstanding keys. -/
theorem outstanding_reverse_append (keys : List Key) (account : KeyAccount) :
    outstanding (keys.reverse.map .pressed ++ account) =
      keys.foldl KeyLatch.toFront account.outstanding := by
  induction keys generalizing account with
  | nil => rfl
  | cons key keys ih =>
    -- The first of the keys is entered first, and so it is the last of those in front.
    rw [List.reverse_cons, List.map_append, List.append_assoc, List.foldl_cons]
    exact ih (.pressed key :: account)

end KeyAccount

/-- Only a key wait is for the pending keys. -/
theorem Instruction.eq_waitKey_of_part? {i : Instruction} (h : i.part? = some .keys) :
    ∃ x, i = .single .waitKey x := by
  cases i with
  | single op x => cases op <;> first | exact ⟨x, rfl⟩ | exact nomatch h
  | address op addr => cases op <;> exact nomatch h
  | byte op x kk => cases op <;> exact nomatch h
  | _ => exact nomatch h

/-! ## What is entered -/

namespace Machine

/-- What an operation enters in the account of a machine, the latest in front: the keys that
    go down, or the key that a key wait has put into its register. -/
def keyEntries (m : Machine) : Operation → KeyAccount
  | .key event => event.pressedKeys.reverse.map .pressed
  | .step =>
    match m.step with
    | (.ok (.executed (.single .waitKey x)), m') =>
      ((Key.ofByte? (m'.state.reg x)).map .delivered).toList
    | _ => []
  | _ => []

/-- The account after several operations, when it was `past` before them. -/
def keyAccount (m : Machine) (past : KeyAccount) : List Operation → KeyAccount
  | [] => past
  | op :: ops => (m.perform op).keyAccount (m.keyEntries op ++ past) ops

/-! ## Key waits -/

/-- A key wait waits as long as no key is pending. -/
theorem step_of_pending_nil {m : Machine} {x : Register}
    (hfetch : m.state.fetch = .ok (.single .waitKey x)) (hpending : m.state.keys.pending = []) :
    m.step = (.ok .awaitingKey, m) := by
  have htake := (KeyLatch.take_eq_none_iff _).2 hpending
  simp only [step, hfetch, execute, Effect.undrawn, SingleOp.execute, htake, Next.target?]

/-- A key wait takes the latest pending key into its register and goes on. -/
theorem step_of_pending_cons {m : Machine} {x : Register} {key : Key} {rest : List Key}
    (hfetch : m.state.fetch = .ok (.single .waitKey x))
    (hpending : m.state.keys.pending = key :: rest) :
    ∃ keys : KeyLatch, keys.pending = rest ∧ keys.held = m.state.keys.held ∧
      m.step = (.ok (.executed (.single .waitKey x)),
        { m with
          state := { m.state.setReg x key.toByte with keys, pc := m.state.pc + 2 }
          history := m.history.save m.state }) := by
  cases htake : m.state.keys.take with
  | none =>
    rw [(KeyLatch.take_eq_none_iff _).1 htake] at hpending
    exact nomatch hpending
  | some taken =>
    obtain ⟨first, keys⟩ := taken
    obtain ⟨hfirst, hheld⟩ := KeyLatch.pending_of_take htake
    rw [hpending] at hfirst
    cases hfirst
    refine ⟨keys, rfl, hheld, ?_⟩
    simp only [step, hfetch, execute, Effect.undrawn, SingleOp.execute, htake, Next.target?]
    rfl

/-- A key wait that is executed takes the latest pending key. -/
theorem exists_key_of_executed {m : Machine} {x : Register}
    (h : m.step.1 = .ok (.executed (.single .waitKey x))) :
    ∃ key, m.step.2.state.reg x = key.toByte ∧
      m.state.keys.pending = key :: m.step.2.state.keys.pending := by
  obtain ⟨_, _, hfetch, -⟩ := step_of_executed h
  cases hpending : m.state.keys.pending with
  | nil =>
    rw [step_of_pending_nil hfetch hpending] at h
    exact nomatch h
  | cons key rest =>
    obtain ⟨keys, hrest, -, hstep⟩ := step_of_pending_cons hfetch hpending
    rw [hstep]
    exact ⟨key, State.reg_setReg_self _ _ _, by rw [← hrest]⟩

/-- A step that does not execute a key wait leaves the pending keys alone. -/
theorem pending_step {m : Machine} (h : ∀ x, m.step.1 ≠ .ok (.executed (.single .waitKey x))) :
    m.step.2.state.keys.pending = m.state.keys.pending := by
  rcases m.step_cases with ⟨_, -, hstep⟩ | ⟨_, _, -, -, hstep⟩ | ⟨_, -, -, hstep⟩ |
    ⟨i, _, _, -, -, -, hstep⟩
  · rw [hstep]
  · rw [hstep]
  · rw [hstep]
  · -- Besides a key wait, no instruction has the keypad among what it can change.
    rw [hstep] at h ⊢
    have hpart : i.part? ≠ some .keys := by
      intro hpart
      obtain ⟨x, rfl⟩ := Instruction.eq_waitKey_of_part? hpart
      exact h x rfl
    show (execute i m.state m.random).state.keys.pending = _
    rw [execute_state_eq]
    exact congrArg KeyLatch.pending (if_neg hpart)

/-- A key wait that is executed is entered as the delivery of the key that it took. -/
theorem keyEntries_of_executed {m : Machine} {x : Register} {key : Key}
    (h : m.step.1 = .ok (.executed (.single .waitKey x)))
    (hreg : m.step.2.state.reg x = key.toByte) :
    m.keyEntries .step = [.delivered key] := by
  have hstep : m.step = (.ok (.executed (.single .waitKey x)), m.step.2) := Prod.ext h rfl
  rw [keyEntries, hstep]
  simp only [hreg, Key.ofByte?_toByte, Option.map_some, Option.toList_some]

/-- What a step enters: the pending key that it takes, or nothing if it takes none. -/
theorem keyEntries_step (m : Machine) :
    (∃ key, m.keyEntries .step = [.delivered key] ∧
      m.state.keys.pending = key :: m.step.2.state.keys.pending) ∨
    (m.keyEntries .step = [] ∧ m.step.2.state.keys.pending = m.state.keys.pending) := by
  by_cases hwait : ∃ x, m.step.1 = .ok (.executed (.single .waitKey x))
  · obtain ⟨x, hx⟩ := hwait
    obtain ⟨key, hreg, hpending⟩ := exists_key_of_executed hx
    exact .inl ⟨key, keyEntries_of_executed hx hreg, hpending⟩
  · refine .inr ⟨?_, pending_step fun x hx => hwait ⟨x, hx⟩⟩
    rw [keyEntries]
    split
    · rename_i x m' hstep
      exact absurd ⟨x, by rw [hstep]⟩ hwait
    · rfl

/-! ## The account is right -/

/-- In an event each key that goes down comes to the front of the pending keys. -/
theorem pending_handle (m : Machine) (event : KeyEvent) :
    (m.handle event).state.keys.pending =
      event.pressedKeys.foldl KeyLatch.toFront m.state.keys.pending := by
  cases event with
  | press byte => exact KeyLatch.pending_press _ _
  | release byte => exact KeyLatch.pending_release _ _
  | poll report => exact KeyLatch.pending_foldl_press _ _

/-- After an operation the pending keys are the outstanding ones, if they were before it. -/
theorem pending_perform {m : Machine} {past : KeyAccount}
    (h : m.state.keys.pending = past.outstanding) (op : Operation) :
    (m.perform op).state.keys.pending = (m.keyEntries op ++ past).outstanding := by
  cases op with
  | load image =>
    show _ = past.outstanding
    rw [← h, perform, load]
    split
    · rfl
    · split <;> rfl
  | step =>
    rcases m.keyEntries_step with ⟨key, hentries, htaken⟩ | ⟨hentries, hkept⟩
    · rw [hentries]
      show _ = past.outstanding.erase key
      rw [← h, htaken, List.erase_cons_head]
      rfl
    · rw [hentries, List.nil_append, ← h]
      exact hkept
  | rewind =>
    -- The snapshot that comes back has the live latch put into it.
    show _ = past.outstanding
    rw [← h, perform, rewind]
    cases m.history.pop? <;> rfl
  | limitHistory limit => exact h
  | decay => exact h
  | key event =>
    rw [perform, pending_handle, h, keyEntries, KeyAccount.outstanding_reverse_append]

/-- After a run the pending keys are the outstanding ones, if they were before it. -/
theorem pending_after {m : Machine} {past : KeyAccount}
    (h : m.state.keys.pending = past.outstanding) (ops : List Operation) :
    (m.after ops).state.keys.pending = (m.keyAccount past ops).outstanding := by
  induction ops generalizing m past with
  | nil => exact h
  | cons op ops ih => exact ih (pending_perform h op)

/-- What an operation enters is covered. -/
theorem covered_perform {m : Machine} {past : KeyAccount}
    (h : m.state.keys.pending = past.outstanding) (hpast : past.Covered) (op : Operation) :
    (m.keyEntries op ++ past).Covered := by
  cases op with
  | step =>
    rcases m.keyEntries_step with ⟨key, hentries, htaken⟩ | ⟨hentries, -⟩
    · rw [hentries, List.singleton_append]
      refine KeyAccount.covered_cons hpast fun k hk => ?_
      cases hk
      rw [← KeyAccount.mem_outstanding_iff, ← h, htaken]
      exact List.mem_cons_self
    · rw [hentries]
      exact hpast
  | key event => exact KeyAccount.covered_append _ hpast
  | _ => exact hpast

/-- What a run enters is covered. -/
theorem covered_after {m : Machine} {past : KeyAccount}
    (h : m.state.keys.pending = past.outstanding) (hpast : past.Covered) (ops : List Operation) :
    (m.keyAccount past ops).Covered := by
  induction ops generalizing m past with
  | nil => exact hpast
  | cons op ops ih => exact ih (pending_perform h op) (covered_perform h hpast op)

/-- Over a run, let the keys that were pending before it count as pressed before it.

    The keys that are pending after the run are those that were pressed and have not been
    delivered since.  A step that executes a key wait delivers one of them, the one whose latest
    press is the most recent, and leaves the others pending.  Whatever else is done, a key that
    is not pressed stays pending or not pending as it was.  And a key is delivered only after a
    press of it, and twice only with a press in between. -/
theorem delivers_each_press_once (m : Machine) (ops : List Operation) :
    let m' := m.after ops
    let account := m.keyAccount (m.state.keys.pending.map .pressed) ops
    (∀ key, key ∈ m'.state.keys.pending ↔ account.Outstanding key) ∧
      (∀ x, m'.step.1 = .ok (.executed (.single .waitKey x)) →
        ∃ key, m'.step.2.state.reg x = key.toByte ∧ m'.keyEntries .step = [.delivered key] ∧
          account.Outstanding key ∧
          (∀ other, account.Outstanding other → other ≠ key → account.PressedAfter key other) ∧
          m'.state.keys.pending = key :: m'.step.2.state.keys.pending) ∧
      (∀ op key, .pressed key ∉ m'.keyEntries op → .delivered key ∉ m'.keyEntries op →
        (key ∈ (m'.perform op).state.keys.pending ↔ key ∈ m'.state.keys.pending)) ∧
      (∀ key later earlier, account = later ++ .delivered key :: earlier →
        .pressed key ∈ earlier) ∧
      ∀ key later between earlier,
        account = later ++ .delivered key :: (between ++ .delivered key :: earlier) →
          .pressed key ∈ between := by
  intro m' account
  have hstart : m.state.keys.pending = KeyAccount.outstanding (m.state.keys.pending.map .pressed) :=
    (KeyAccount.outstanding_map_pressed m.state.keys.pending_nodup).symm
  have hpending : m'.state.keys.pending = account.outstanding := pending_after hstart ops
  have hmem : ∀ key, key ∈ m'.state.keys.pending ↔ account.Outstanding key := by
    intro key
    rw [hpending, KeyAccount.mem_outstanding_iff]
  -- To start with, nothing has been delivered.
  have hcovered : account.Covered := by
    refine covered_after hstart ?_ ops
    rw [← List.append_nil (m.state.keys.pending.map KeyEntry.pressed)]
    exact KeyAccount.covered_append _ KeyAccount.covered_nil
  refine ⟨hmem, fun x hx => ?_, fun op key hpressed hdelivered => ?_,
    fun key later earlier heq => ?_, fun key later between earlier heq => ?_⟩
  · obtain ⟨key, hreg, hkey⟩ := exists_key_of_executed hx
    have hfirst : account.outstanding = key :: m'.step.2.state.keys.pending :=
      hpending.symm.trans hkey
    have hout : account.Outstanding key := by
      rw [← KeyAccount.mem_outstanding_iff, hfirst]
      exact List.mem_cons_self
    exact ⟨key, hreg, keyEntries_of_executed hx hreg, hout,
      fun other => KeyAccount.pressedAfter_of_outstanding_eq_cons hfirst, hkey⟩
  · rw [hmem, pending_perform hpending op, KeyAccount.mem_outstanding_iff]
    exact KeyAccount.outstanding_append_iff hpressed hdelivered
  · obtain ⟨_, _, rfl, -⟩ := hcovered key later earlier heq
    exact List.mem_append_right _ List.mem_cons_self
  · exact (hcovered key later _ heq).mem_of_append

end Machine

end Chip8
