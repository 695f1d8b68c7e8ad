import Chip8.CallSlots
import Mathlib.Data.List.Perm.Basic

/-!
# A call stack is a list of addresses

To whoever calls and returns, a call stack is a list of return addresses: a call appends one as
long as there are fewer than sixteen, and a return takes the last one off.  `CallOp.onList` says so
in as many words.  This file shows that a call stack behaves like that list through any sequence of
operations, refused ones included, and so does one that is laid out in sixteen slots.  A slot that
is not in use still holds the address of an earlier call, but no operation looks at it: what is
returned was there or was pushed, and each address comes back as often as it was.

## Key results

- `CallOp.onList_cases`: what an operation does to a list
- `CallOp.perm_runList`: what was there and what was pushed is what is returned and what is left
- `CallSlots.LaysOut.perform`: an operation on slots that lay out a list, and on the list
- `CallSlots.LaysOut.run`, `CallStack.run_eq`: any sequence of operations
- `call_stack_is_list`: what this says of a new call stack and of its slots
-/

namespace Chip8

/-- What is asked of a call stack. -/
inductive CallOp where
  | push (address : UInt16)
  | pop
  deriving DecidableEq

/-- What a call stack answers: the address that is returned, if there is one, or why the operation
    is refused. -/
abbrev CallAnswer : Type := Except RangeFault (Option UInt16)

/-! ## Lists -/

namespace CallOp

/-- An operation on a list of at most sixteen addresses, the latest at the end.  One that is refused
    changes nothing. -/
def onList (list : List UInt16) : CallOp → CallAnswer × List UInt16
  | push address =>
    if list.length < 16 then (.ok none, list ++ [address])
    else (.error (.stackOverflow 16), list)
  | pop =>
    match list.getLast? with
    | none => (.error .stackUnderflow, list)
    | some address => (.ok (some address), list.dropLast)

/-- Operations on a list one after the other: the answers, and the list in the end. -/
def runList (list : List UInt16) : List CallOp → List CallAnswer × List UInt16
  | [] => ([], list)
  | op :: ops =>
    let first := op.onList list
    let rest := runList first.2 ops
    (first.1 :: rest.1, rest.2)

/-- The address that an operation has pushed, going by its answer. -/
def pushed? : CallOp × CallAnswer → Option UInt16
  | (push address, .ok _) => some address
  | _ => none

/-- The addresses that operations have pushed. -/
def pushed (ops : List CallOp) (answers : List CallAnswer) : List UInt16 :=
  (ops.zip answers).filterMap pushed?

/-- The address that is returned with an answer. -/
def returned? : CallAnswer → Option UInt16
  | .ok address? => address?
  | .error _ => none

/-- The addresses that are returned with answers. -/
def returned (answers : List CallAnswer) : List UInt16 := answers.filterMap returned?

theorem onList_push_of_lt {list : List UInt16} (h : list.length < 16) (address : UInt16) :
    (push address).onList list = (.ok none, list ++ [address]) := if_pos h

theorem onList_push_of_full {list : List UInt16} (h : list.length = 16) (address : UInt16) :
    (push address).onList list = (.error (.stackOverflow 16), list) := if_neg (by omega)

theorem onList_pop_append (list : List UInt16) (address : UInt16) :
    pop.onList (list ++ [address]) = (.ok (some address), list) := by
  simp only [onList, List.getLast?_concat, List.dropLast_concat]

/-- An operation appends an address, takes the last one off, or is refused and changes nothing. -/
theorem onList_cases (list : List UInt16) (op : CallOp) :
    (∃ address, op = push address ∧ list.length < 16 ∧
      op.onList list = (.ok none, list ++ [address])) ∨
    (∃ rest address, op = pop ∧ list = rest ++ [address] ∧
      op.onList list = (.ok (some address), rest)) ∨
    ∃ cause, op.onList list = (.error cause, list) := by
  cases op with
  | push address =>
    by_cases h : list.length < 16
    · exact .inl ⟨address, rfl, h, onList_push_of_lt h address⟩
    · exact .inr (.inr ⟨_, if_neg h⟩)
  | pop =>
    rcases List.eq_nil_or_concat list with rfl | ⟨rest, address, rfl⟩
    · exact .inr (.inr ⟨_, rfl⟩)
    · rw [List.concat_eq_append]
      exact .inr (.inl ⟨rest, address, rfl, rfl, onList_pop_append rest address⟩)

theorem length_onList_le {list : List UInt16} (h : list.length ≤ 16) (op : CallOp) :
    (op.onList list).2.length ≤ 16 := by
  rcases onList_cases list op with ⟨address, -, hlt, hop⟩ | ⟨rest, address, -, rfl, hop⟩ | ⟨_, hop⟩
  · simp only [hop, List.length_append, List.length_singleton]
    omega
  · simp only [hop]
    rw [List.length_append] at h
    omega
  · rw [hop]
    exact h

theorem length_runList_le {list : List UInt16} (h : list.length ≤ 16) (ops : List CallOp) :
    (runList list ops).2.length ≤ 16 := by
  induction ops generalizing list with
  | nil => exact h
  | cons op ops ih => exact ih (length_onList_le h op)

/-- The addresses that were there and those that were pushed are the ones that are returned and
    those that are left, each as often as before. -/
theorem perm_runList (list : List UInt16) (ops : List CallOp) :
    (list ++ pushed ops (runList list ops).1).Perm
      (returned (runList list ops).1 ++ (runList list ops).2) := by
  induction ops generalizing list with
  | nil => simp [runList, pushed, returned]
  | cons op ops ih =>
    have hrest := ih (op.onList list).2
    rcases onList_cases list op with ⟨address, rfl, -, hop⟩ | ⟨rest, address, rfl, rfl, hop⟩ |
      ⟨cause, hop⟩
    · rw [hop, List.append_assoc] at hrest
      simp only [runList, hop]
      exact hrest
    · -- The last address moves from the front of what is left to the front of what is returned.
      rw [hop] at hrest
      simp only [runList, hop, List.append_assoc]
      exact List.perm_middle.trans (hrest.cons address)
    · have hnone : ∀ answers, pushed (op :: ops) (.error cause :: answers) = pushed ops answers := by
        cases op <;> exact fun _ => rfl
      rw [hop] at hrest
      simp only [runList, hop, hnone]
      exact hrest

/-- An address that is returned was there before, or it is pushed. -/
theorem mem_or_mem_of_returned {list : List UInt16} {ops : List CallOp} {address : UInt16}
    (h : address ∈ returned (runList list ops).1) : address ∈ list ∨ push address ∈ ops := by
  have hmem := (perm_runList list ops).mem_iff.2 (List.mem_append_left _ h)
  refine (List.mem_append.1 hmem).imp_right fun hpushed => ?_
  obtain ⟨⟨op, answer⟩, hzip, hop⟩ := List.mem_filterMap.1 hpushed
  have hmemOp := (List.of_mem_zip hzip).1
  match op, answer, hop with
  | push _, .ok _, hop => cases hop; exact hmemOp

end CallOp

/-! ## Call stacks -/

namespace CallStack

/-- An operation on a call stack. -/
def perform (s : CallStack) : CallOp → CallAnswer × CallStack
  | .push address =>
    match s.push address with
    | .ok t => (.ok none, t)
    | .error cause => (.error cause, s)
  | .pop =>
    match s.pop with
    | .ok (address, t) => (.ok (some address), t)
    | .error cause => (.error cause, s)

/-- Operations on a call stack one after the other: the answers, and the stack in the end. -/
def run (s : CallStack) : List CallOp → List CallAnswer × CallStack
  | [] => ([], s)
  | op :: ops =>
    let first := s.perform op
    let rest := first.2.run ops
    (first.1 :: rest.1, rest.2)

/-- The list that a call stack stands for. -/
def toList (s : CallStack) : List UInt16 := s.returns.reverse

/-- An operation does the same to a call stack and to the list that it stands for. -/
theorem perform_eq (s : CallStack) (op : CallOp) :
    op.onList s.toList = ((s.perform op).1, (s.perform op).2.toList) := by
  cases op with
  | push address =>
    have hlength : s.toList.length = s.returns.length := List.length_reverse
    by_cases h : s.returns.length < 16
    · rw [CallOp.onList_push_of_lt (by omega)]
      simp only [perform, push, dif_pos h, toList, List.reverse_cons]
    · have hfull : s.depth = 16 := Nat.le_antisymm s.depth_le (Nat.le_of_not_lt h)
      rw [CallOp.onList_push_of_full (hlength.trans hfull)]
      simp only [perform, push, dif_neg h, hfull]
  | pop =>
    obtain ⟨returns, _⟩ := s
    cases returns with
    | nil => rfl
    | cons address rest =>
      simp only [toList, List.reverse_cons, CallOp.onList_pop_append, perform, pop]

theorem run_eq (s : CallStack) (ops : List CallOp) :
    CallOp.runList s.toList ops = ((s.run ops).1, (s.run ops).2.toList) := by
  induction ops generalizing s with
  | nil => rfl
  | cons op ops ih => simp only [CallOp.runList, run, perform_eq, ih]

theorem toList_empty : empty.toList = [] := rfl

end CallStack

/-! ## Slots -/

namespace CallSlots

/-- An operation on slots, if all its accesses are in range. -/
def perform? (s : CallSlots) : CallOp → Option (CallAnswer × CallSlots)
  | .push address => some ((s.push address).1.map fun _ => none, (s.push address).2)
  | .pop => s.pop.map fun (answer, t) => (answer.map some, t)

/-- Operations on slots one after the other, if all accesses are in range: the answers, and the
    slots in the end. -/
def run? (s : CallSlots) : List CallOp → Option (List CallAnswer × CallSlots)
  | [] => some ([], s)
  | op :: ops => do
    let (answer, s) ← s.perform? op
    let (answers, s) ← s.run? ops
    some (answer :: answers, s)

/-- To put an address into a slot puts it behind those in use. -/
theorem push_of_lt {s : CallSlots} (h : s.used < 16) (address : UInt16) :
    ∃ t, s.push address = (.ok (), t) ∧ t.live = s.live ++ [address] ∧ t.used = s.used + 1 :=
  ⟨_, dif_pos h, Vector.take_toList_set s.slots h address, rfl⟩

theorem push_of_full {s : CallSlots} (h : s.used = 16) (address : UInt16) :
    s.push address = (.error (.stackOverflow 16), s) := by
  rw [push, dif_neg (by omega), h]

/-- To free the last slot takes its address off those in use. -/
theorem exists_pop {s : CallSlots} {last : Nat} (hused : s.used = last + 1) (h : last < 16) :
    ∃ address t, s.pop = some (.ok address, t) ∧ s.live = t.live ++ [address] ∧ t.used = last := by
  obtain ⟨slots, used⟩ := s
  cases hused
  exact ⟨slots[last], ⟨slots, last⟩, dif_pos h, Vector.take_toList_succ slots h, rfl⟩

/-- Slots that lay out a list of at most sixteen addresses: the slots in use hold it, and it does
    not matter what the other slots hold. -/
structure LaysOut (s : CallSlots) (list : List UInt16) : Prop where
  used_le : s.used ≤ 16
  live : s.live = list

namespace LaysOut

variable {s : CallSlots} {list : List UInt16}

theorem length_eq (h : s.LaysOut list) : list.length = s.used := by
  have hused := h.used_le
  rw [← h.live, CallSlots.live, List.length_take, Vector.length_toList]
  omega

/-- An operation gives the same answer on slots and on the list that they lay out. -/
theorem perform (h : s.LaysOut list) (op : CallOp) :
    ∃ t, s.perform? op = some ((op.onList list).1, t) ∧ t.LaysOut (op.onList list).2 ∧
      ((op.onList list).1.isOk = false → t = s) := by
  have hlength := h.length_eq
  have hused := h.used_le
  cases op with
  | push address =>
    by_cases hlt : list.length < 16
    · -- The slot behind those in use is there, because fewer than sixteen are.
      obtain ⟨t, hpush, hlive, hcount⟩ := push_of_lt (show s.used < 16 by omega) address
      rw [CallOp.onList_push_of_lt hlt, perform?, hpush]
      exact ⟨t, rfl, ⟨by omega, by rw [hlive, h.live]⟩, nofun⟩
    · -- Both refuse, and neither changes.
      rw [CallOp.onList_push_of_full (by omega), perform?, push_of_full (by omega)]
      exact ⟨s, rfl, h, fun _ => rfl⟩
  | pop =>
    cases hcount : s.used with
    | zero =>
      -- No slot is in use, so the list is empty and refuses as well.
      have hnil : list = [] := List.length_eq_zero_iff.1 (hlength.trans hcount)
      subst hnil
      refine ⟨s, ?_, h, fun _ => rfl⟩
      rw [perform?, pop, hcount]
      rfl
    | succ last =>
      -- The last slot in use lies within the sixteen.
      obtain ⟨address, t, hpop, hlive, hlast⟩ := exists_pop hcount (by omega)
      rw [← h.live, hlive, CallOp.onList_pop_append, perform?, hpop]
      exact ⟨t, rfl, ⟨by omega, rfl⟩, nofun⟩

theorem run (h : s.LaysOut list) (ops : List CallOp) :
    ∃ t, s.run? ops = some ((CallOp.runList list ops).1, t) ∧
      t.LaysOut (CallOp.runList list ops).2 := by
  induction ops generalizing s list with
  | nil => exact ⟨s, rfl, h⟩
  | cons op ops ih =>
    -- That slots lay out the list is what carries the induction.
    obtain ⟨s₁, hperform, h₁, -⟩ := h.perform op
    obtain ⟨t, hrest, ht⟩ := ih h₁
    refine ⟨t, ?_, ht⟩
    rw [run?, hperform]
    show (s₁.run? ops).bind _ = _
    rw [hrest]
    rfl

end LaysOut

theorem empty_laysOut : empty.LaysOut [] where
  used_le := by decide
  live := rfl

end CallSlots

/-- Whatever is asked of a new call stack, it answers as the list of at most sixteen addresses does,
    and so do its sixteen slots: no access is out of range, the slots in use hold that list, and an
    operation that is refused leaves the slots as they are.

    Whatever is asked of the slots from then on, the addresses that they held and those that are
    pushed are the ones that are returned and the ones that are left.  So an address that is not
    held, though it may still be in a slot that is not in use, is only returned if it is pushed. -/
theorem call_stack_is_list (ops : List CallOp) :
    let list := (CallOp.runList [] ops).2
    list.length ≤ 16 ∧
    (CallStack.empty.run ops).1 = (CallOp.runList [] ops).1 ∧
    (CallStack.empty.run ops).2.returns = list.reverse ∧
    ∃ s, CallSlots.empty.run? ops = some ((CallOp.runList [] ops).1, s) ∧
      s.live = list ∧ s.depth = list.length ∧
      (∀ op, ∃ t, s.perform? op = some ((op.onList list).1, t) ∧ t.live = (op.onList list).2 ∧
        ((op.onList list).1.isOk = false → t = s)) ∧
      ∀ later, ∃ answers t, s.run? later = some (answers, t) ∧
        (list ++ CallOp.pushed later answers).Perm (CallOp.returned answers ++ t.live) ∧
        ∀ address, address ∉ list → .push address ∉ later →
          address ∉ CallOp.returned answers := by
  intro list
  -- New slots lay out the empty list, and so the slots after the run lay out its list.
  obtain ⟨s, hs, h⟩ := CallSlots.empty_laysOut.run ops
  have hstack := CallStack.empty.run_eq ops
  rw [CallStack.toList_empty] at hstack
  refine ⟨CallOp.length_runList_le (by decide) ops, ?_, ?_, s, hs, h.live, h.length_eq.symm,
    fun op => ?_, fun later => ?_⟩
  · rw [hstack]
  · show _ = (CallOp.runList [] ops).2.reverse
    rw [hstack, CallStack.toList, List.reverse_reverse]
  · obtain ⟨t, hperform, ht, hrefused⟩ := h.perform op
    exact ⟨t, hperform, ht.live, hrefused⟩
  · obtain ⟨t, hrun, ht⟩ := h.run later
    refine ⟨_, t, hrun, ?_, fun address hheld hpush hreturned => ?_⟩
    · rw [ht.live]
      exact CallOp.perm_runList list later
    · -- An address that is neither held nor pushed would have to be one of these.
      rcases CallOp.mem_or_mem_of_returned hreturned with hmem | hmem
      · exact hheld hmem
      · exact hpush hmem

/-- An address is still in its slot after it was returned.  A return that is refused leaves it there,
    and the returns that follow do not find it. -/
theorem call_stack_is_list_after_return :
    let ops : List CallOp := [.push 0x202, .pop]
    let list := (CallOp.runList [] ops).2
    let later : List CallOp := [.pop, .push 0x400, .pop]
    (0x202 ∉ list ∧ .push 0x202 ∉ later ∧ (CallOp.pop.onList list).1.isOk = false) ∧
      ∃ s, (CallSlots.empty.run? ops).map Prod.snd = some s ∧ s.slots[0] = 0x202 ∧
        (s.perform? .pop).map Prod.snd = some s ∧
        ∃ answers t, s.run? later = some (answers, t) ∧ 0x202 ∉ CallOp.returned answers := by
  intro ops list later
  have hheld : 0x202 ∉ list := by decide
  have hpush : .push 0x202 ∉ later := by decide
  have hrefused : (CallOp.pop.onList list).1.isOk = false := by decide
  -- The slot is not looked at by any operation, although the address is still in it.
  obtain ⟨-, -, -, s, hs, -, -, hperform, hlater⟩ := call_stack_is_list ops
  obtain ⟨t, hpop, -, hsame⟩ := hperform .pop
  obtain ⟨answers, u, hrun, -, hreturned⟩ := hlater later
  have hslot : (CallSlots.empty.run? ops).map (·.2.slots[0]) = some 0x202 := by decide
  rw [hs] at hslot
  refine ⟨⟨hheld, hpush, hrefused⟩, s, by rw [hs]; rfl, Option.some.inj hslot, ?_, answers, u, hrun,
    hreturned 0x202 hheld hpush⟩
  rw [hpop, hsame hrefused]
  rfl

end Chip8
