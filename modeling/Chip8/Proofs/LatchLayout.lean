import Chip8.KeySlots
import Chip8.Proofs.KeypadPolling
import Chip8.Proofs.MachineInvariant
import Mathlib.Data.Finset.Insert
import Mathlib.Data.Fintype.Basic

/-!
# A latch is a list of keys

To whoever presses keys and takes them, a latch is a set of held keys and a list of pending ones:
a key that goes down comes to the end of the list, and the key at the end is the one that is
taken.  `KeyList` says so in as many words.  This file shows that a latch behaves like one through
any sequence of operations, and so does a latch that is laid out in sixteen slots: none of its
accesses is ever out of range, because the pending keys are distinct, and what is left in a slot
that is not in use is never seen again.

## Key results

- `KeyLatch.toKeyList_perform`, `KeyLatch.toKeyList_after`: the list that a latch stands for
- `KeySlots.exists_forget`, `KeySlots.exists_store`: what happens to the slots in use
- `KeySlots.LaysOut.press`, `KeySlots.LaysOut.take`: slots that lay out a latch, after an operation
- `KeySlots.LaysOut.after`: and after any sequence of operations
- `latch_lists_keys`: what this says of a latch and of its slots
-/

namespace Chip8

/-- What is asked of a latch. -/
inductive LatchOp where
  | event (event : KeyEvent)
  | take

/-! ## Lists of keys -/

namespace HeldKeys

/-- The keys that are down, as a set. -/
def toFinset (held : HeldKeys) : Finset Key := Finset.univ.filter (held.has · = true)

theorem mem_toFinset {held : HeldKeys} {key : Key} :
    key ∈ held.toFinset ↔ held.has key = true := by
  simp [toFinset]

theorem has_put (held : HeldKeys) (key k : Key) (down : Bool) :
    (held.put key down).has k = if key = k then down else held.has k := by
  simp only [has, put, Fin.getElem_fin, Vector.getElem_set, Fin.ext_iff]

theorem toFinset_put_true (held : HeldKeys) (key : Key) :
    (held.put key true).toFinset = insert key held.toFinset := by
  ext k
  rw [mem_toFinset, has_put, Finset.mem_insert, mem_toFinset]
  by_cases hk : key = k
  · simp [hk]
  · simp [hk, Ne.symm hk]

theorem toFinset_put_false (held : HeldKeys) (key : Key) :
    (held.put key false).toFinset = held.toFinset.erase key := by
  ext k
  rw [mem_toFinset, has_put, Finset.mem_erase, mem_toFinset]
  by_cases hk : key = k
  · simp [hk]
  · simp [hk, Ne.symm hk]

end HeldKeys

/-- Keys that are held, and the keys that are pending, the latest press at the end. -/
structure KeyList where
  held : Finset Key
  pending : List Key
  deriving DecidableEq

namespace KeyList

def empty : KeyList := ⟨∅, []⟩

/-- A key that goes down is held, and goes to the end of the list.  Other bytes change nothing. -/
def press (l : KeyList) (byte : UInt8) : KeyList :=
  match Key.ofByte? byte with
  | none => l
  | some key => { held := insert key l.held, pending := l.pending.erase key ++ [key] }

/-- A key that goes up is not held any more. -/
def release (l : KeyList) (byte : UInt8) : KeyList :=
  match Key.ofByte? byte with
  | none => l
  | some key => { l with held := l.held.erase key }

/-- The keys of a poll go down in order, and then the held keys are those of the poll. -/
def update (l : KeyList) (poll : KeyPoll) : KeyList :=
  { poll.pressed.foldl press l with held := poll.held.toFinset }

/-- The list after an operation.  What is taken is the last key. -/
def perform (l : KeyList) : LatchOp → KeyList
  | .event (.press byte) => l.press byte
  | .event (.release byte) => l.release byte
  | .event (.poll report) => l.update report
  | .take => { l with pending := l.pending.dropLast }

/-- The list after operations one after the other. -/
def after (l : KeyList) (ops : List LatchOp) : KeyList := ops.foldl perform l

end KeyList

/-- In a list without repetitions it does not matter from which end a key is looked for. -/
theorem reverse_erase {keys : List Key} (h : keys.Nodup) (key : Key) :
    (keys.erase key).reverse = keys.reverse.erase key := by
  rw [h.erase_eq_filter, (List.nodup_reverse.2 h).erase_eq_filter, List.filter_reverse]

namespace KeyLatch

/-- The latch after an operation. -/
def perform (l : KeyLatch) : LatchOp → KeyLatch
  | .event (.press byte) => l.press byte
  | .event (.release byte) => l.release byte
  | .event (.poll report) => l.update report
  | .take => l.drop

/-- The latch after operations one after the other. -/
def after (l : KeyLatch) (ops : List LatchOp) : KeyLatch := ops.foldl perform l

/-- The list that a latch stands for. -/
def toKeyList (l : KeyLatch) : KeyList where
  held := l.held.toFinset
  pending := l.pending.reverse

theorem toKeyList_press (l : KeyLatch) (byte : UInt8) :
    (l.press byte).toKeyList = l.toKeyList.press byte := by
  unfold press KeyList.press
  cases Key.ofByte? byte with
  | none => rfl
  | some key =>
    -- The newest key is at the front of the latch, and at the end of the list.
    have hpending :
        (key :: l.pending.erase key).reverse = l.pending.reverse.erase key ++ [key] := by
      rw [List.reverse_cons, reverse_erase l.pending_nodup]
    simp only [toKeyList, HeldKeys.toFinset_put_true, hpending]

theorem toKeyList_release (l : KeyLatch) (byte : UInt8) :
    (l.release byte).toKeyList = l.toKeyList.release byte := by
  unfold release KeyList.release
  cases Key.ofByte? byte with
  | none => rfl
  | some key => simp only [toKeyList, HeldKeys.toFinset_put_false]

theorem toKeyList_foldl_press (l : KeyLatch) (bytes : List UInt8) :
    (bytes.foldl press l).toKeyList = bytes.foldl KeyList.press l.toKeyList := by
  induction bytes generalizing l with
  | nil => rfl
  | cons byte bytes ih => rw [List.foldl_cons, List.foldl_cons, ih, toKeyList_press]

theorem toKeyList_update (l : KeyLatch) (poll : KeyPoll) :
    (l.update poll).toKeyList = l.toKeyList.update poll := by
  rw [KeyList.update, ← toKeyList_foldl_press]
  rfl

theorem pending_drop (l : KeyLatch) : l.drop.pending = l.pending.tail := by
  unfold drop
  cases htake : l.take with
  | none => rw [(take_eq_none_iff l).1 htake]; rfl
  | some taken => rw [(pending_of_take htake).1]; rfl

theorem map_fst_take (l : KeyLatch) : l.take.map Prod.fst = l.pending.head? := by
  match l with
  | { pending := [], .. } => rfl
  | { pending := _ :: _, .. } => rfl

theorem hasPending_iff (l : KeyLatch) : l.hasPending = true ↔ l.pending ≠ [] := by
  simp [hasPending]

/-- An operation does the same to a latch and to the list that it stands for. -/
theorem toKeyList_perform (l : KeyLatch) (op : LatchOp) :
    (l.perform op).toKeyList = l.toKeyList.perform op := by
  cases op with
  | event event =>
    cases event with
    | press byte => exact l.toKeyList_press byte
    | release byte => exact l.toKeyList_release byte
    | poll report => exact l.toKeyList_update report
  | take =>
    have hpending : l.pending.tail.reverse = l.pending.reverse.dropLast := by simp
    simp only [perform, KeyList.perform, toKeyList, held_drop, pending_drop, hpending]

theorem toKeyList_after (l : KeyLatch) (ops : List LatchOp) :
    (l.after ops).toKeyList = l.toKeyList.after ops := by
  induction ops generalizing l with
  | nil => rfl
  | cons op ops ih =>
    show ((l.perform op).after ops).toKeyList = (l.toKeyList.perform op).after ops
    rw [ih, toKeyList_perform]

theorem toKeyList_empty : empty.toKeyList = KeyList.empty := by
  decide

end KeyLatch

/-! ## Slots -/

namespace KeySlots

/-- The slots after an operation, if all its accesses are in range. -/
def perform (s : KeySlots) : LatchOp → Option KeySlots
  | .event (.press byte) => s.press byte
  | .event (.release byte) => some (s.release byte)
  | .event (.poll report) => s.update report
  | .take => s.take.map Prod.snd

/-- The slots after operations one after the other, if all accesses are in range. -/
def after? (s : KeySlots) (ops : List LatchOp) : Option KeySlots := ops.foldlM perform s

theorem length_live {s : KeySlots} (h : s.used ≤ 16) : s.live.length = s.used := by
  rw [live, List.length_take, Vector.length_toList, Nat.min_eq_left h]

/-- To free a slot takes one key out of the list of those in use. -/
theorem exists_forget {s : KeySlots} (h : s.used ≤ 16) (byte : UInt8) :
    ∃ s', s.forget byte = some s' ∧ s'.held = s.held ∧ s'.live = s.live.erase byte ∧
      s'.used = (s.live.erase byte).length := by
  rw [forget, if_pos h]
  cases hposition : s.live.idxOf? byte with
  | none =>
    have hmem : byte ∉ s.live := List.idxOf?_eq_none_iff.1 hposition
    exact ⟨s, rfl, rfl, (List.erase_of_not_mem hmem).symm, by
      rw [List.erase_of_not_mem hmem, length_live h]⟩
  | some position =>
    obtain ⟨hlt, -⟩ := List.idxOf?_eq_some_iff.1 hposition
    rw [length_live h] at hlt
    have herase : s.live.erase byte = s.live.take position ++ s.live.drop (position + 1) := by
      rw [List.erase_eq_eraseIdx, hposition]
      exact List.eraseIdx_eq_take_drop_succ ..
    have hlength : (s.live.erase byte).length = s.used - 1 := by
      simp only [herase, List.length_append, List.length_take, List.length_drop, length_live h]
      omega
    -- What is copied down ends where the last slot in use was, so it still fits.
    have hfits : position + (s.live.drop (position + 1)).length ≤ 16 := by
      rw [List.length_drop, length_live h]
      omega
    have hfront : s.slots.toList.take position = s.live.take position := by
      rw [live, List.take_take, Nat.min_eq_left hlt.le]
    refine ⟨_, rfl, rfl, ?_, hlength.symm⟩
    show (s.slots.overwrite position _).toList.take (s.used - 1) = s.live.erase byte
    rw [Vector.toList_overwrite _ hfits, hfront, ← herase, List.take_left' hlength]

/-- To put a key into a slot puts it behind those in use. -/
theorem exists_store {s : KeySlots} (h : s.used < 16) (byte : UInt8) :
    ∃ s', s.store byte = some s' ∧ s'.held = s.held ∧ s'.live = s.live ++ [byte] ∧
      s'.used = s.used + 1 := by
  refine ⟨_, dif_pos h, rfl, ?_, rfl⟩
  exact Vector.take_toList_set s.slots h byte

theorem take_of_used_eq_succ {s : KeySlots} {last : Nat} (hused : s.used = last + 1)
    (h : last < 16) : s.take = some (some s.slots[last], { s with used := last }) := by
  obtain ⟨held, slots, used⟩ := s
  cases hused
  exact dif_pos h

/-- Slots that lay out a latch: the pending keys are in the slots in use, the latest press in the
    last one.  What is in the other slots does not matter. -/
structure LaysOut (s : KeySlots) (l : KeyLatch) : Prop where
  held : s.held = l.held
  live : s.live = l.pending.reverse.map Key.toByte
  used : s.used = l.pending.length

namespace LaysOut

variable {s : KeySlots} {l : KeyLatch}

theorem used_le (h : s.LaysOut l) : s.used ≤ 16 := by
  rw [h.used]
  exact l.length_pending_le

theorem setHeld (h : s.LaysOut l) (held : HeldKeys) :
    { s with held }.LaysOut { l with held } where
  held := rfl
  live := h.live
  used := h.used

theorem forget (h : s.LaysOut l) (key : Key) :
    ∃ s', s.forget key.toByte = some s' ∧
      s'.LaysOut { l with
        pending := l.pending.erase key
        pending_nodup := l.pending_nodup.erase key } := by
  obtain ⟨s', hforget, hheld, hlive, hused⟩ := exists_forget h.used_le key.toByte
  -- Keys that differ have different bytes, so the byte is found where the key is.
  have herase : s.live.erase key.toByte = (l.pending.erase key).reverse.map Key.toByte := by
    rw [h.live, reverse_erase l.pending_nodup, List.map_erase Key.toByte_injective]
  refine ⟨s', hforget, hheld.trans h.held, hlive.trans herase, ?_⟩
  rw [hused, herase, List.length_map, List.length_reverse]

theorem press (h : s.LaysOut l) (byte : UInt8) :
    ∃ s', s.press byte = some s' ∧ s'.LaysOut (l.press byte) := by
  unfold KeySlots.press KeyLatch.press
  cases hbyte : Key.ofByte? byte with
  | none => exact ⟨s, rfl, h⟩
  | some key =>
    obtain rfl := Key.toByte_of_ofByte? hbyte
    obtain ⟨s₁, hforget, h₁⟩ := (h.setHeld (s.held.put key true)).forget key
    -- The slot that the key is put into exists, because the other pending keys are not all keys.
    have hroom : s₁.used < 16 := by
      rw [h₁.used]
      exact l.length_erase_pending_lt key
    obtain ⟨s₂, hstore, hheld, hlive, hused⟩ := exists_store hroom key.toByte
    refine ⟨s₂, ?_, ?_, ?_, ?_⟩
    · show ({ s with held := s.held.put key true }.forget key.toByte).bind (store · key.toByte) = _
      rw [hforget]
      exact hstore
    · rw [hheld, h₁.held, h.held]
    · rw [hlive, h₁.live, List.reverse_cons, List.map_append]
      rfl
    · rw [hused, h₁.used]
      rfl

theorem release (h : s.LaysOut l) (byte : UInt8) : (s.release byte).LaysOut (l.release byte) := by
  unfold KeySlots.release KeyLatch.release
  cases Key.ofByte? byte with
  | none => exact h
  | some key =>
    rw [← h.held]
    exact h.setHeld _

theorem foldlM_press (h : s.LaysOut l) (bytes : List UInt8) :
    ∃ s', bytes.foldlM KeySlots.press s = some s' ∧ s'.LaysOut (bytes.foldl KeyLatch.press l) := by
  induction bytes generalizing s l with
  | nil => exact ⟨s, rfl, h⟩
  | cons byte bytes ih =>
    obtain ⟨s₁, hpress, h₁⟩ := h.press byte
    -- What the first press leaves is laid out as well, so the next one has its place.
    obtain ⟨s', hrest, h'⟩ := ih h₁
    refine ⟨s', ?_, h'⟩
    rw [List.foldlM_cons, hpress]
    exact hrest

theorem update (h : s.LaysOut l) (poll : KeyPoll) :
    ∃ s', s.update poll = some s' ∧ s'.LaysOut (l.update poll) := by
  obtain ⟨s', hpresses, h'⟩ := h.foldlM_press poll.pressed
  refine ⟨{ s' with held := poll.held }, ?_, h'.setHeld poll.held⟩
  rw [KeySlots.update, hpresses]
  rfl

/-- What is taken from the slots is the byte of the key that is taken from the latch. -/
theorem take (h : s.LaysOut l) :
    ∃ s', s.take = some (l.pending.head?.map Key.toByte, s') ∧ s'.LaysOut l.drop := by
  have hdrop : l.drop.pending = l.pending.tail := l.pending_drop
  have hheld : s.held = l.drop.held := h.held.trans (KeyLatch.held_drop l).symm
  cases hpending : l.pending with
  | nil =>
    -- Nothing is pending, so no slot is in use.
    have hused : s.used = 0 := by rw [h.used, hpending]; rfl
    rw [hpending] at hdrop
    refine ⟨s, by rw [KeySlots.take, hused]; rfl, hheld, ?_, ?_⟩
    · rw [h.live, hpending, hdrop]
      rfl
    · rw [hused, hdrop]
      rfl
  | cons key rest =>
    have hused : s.used = rest.length + 1 := by rw [h.used, hpending]; rfl
    have hlast : rest.length < 16 := by have := h.used_le; omega
    have hlength : rest.length < s.slots.toList.length := by rwa [Vector.length_toList]
    rw [hpending] at hdrop
    -- The slots in use are the ones in front of the last one, and the last one.
    have hlive : s.slots.toList.take rest.length ++ [s.slots[rest.length]] =
        rest.reverse.map Key.toByte ++ [key.toByte] := by
      have hlive := h.live
      rw [KeySlots.live, hused, ← List.take_append_getElem hlength, hpending, List.reverse_cons,
        List.map_append] at hlive
      exact hlive
    obtain ⟨hfront, hbyte⟩ := List.append_inj' hlive rfl
    refine ⟨{ s with used := rest.length }, ?_, hheld, ?_, ?_⟩
    · rw [take_of_used_eq_succ hused hlast, List.singleton_inj.1 hbyte]
      rfl
    · rw [hdrop]
      exact hfront
    · rw [hdrop]
      rfl

theorem hasPending_iff (h : s.LaysOut l) : s.hasPending = true ↔ l.pending ≠ [] := by
  rw [KeySlots.hasPending, h.used, decide_eq_true_eq, List.length_pos_iff]

theorem perform (h : s.LaysOut l) (op : LatchOp) :
    ∃ s', s.perform op = some s' ∧ s'.LaysOut (l.perform op) := by
  cases op with
  | event event =>
    cases event with
    | press byte => exact h.press byte
    | release byte => exact ⟨_, rfl, h.release byte⟩
    | poll report => exact h.update report
  | take =>
    obtain ⟨s', htake, h'⟩ := h.take
    refine ⟨s', ?_, h'⟩
    rw [KeySlots.perform, htake]
    rfl

theorem after (h : s.LaysOut l) (ops : List LatchOp) :
    ∃ s', s.after? ops = some s' ∧ s'.LaysOut (l.after ops) := by
  induction ops generalizing s l with
  | nil => exact ⟨s, rfl, h⟩
  | cons op ops ih =>
    obtain ⟨s₁, hperform, h₁⟩ := h.perform op
    obtain ⟨s', hrest, h'⟩ := ih h₁
    refine ⟨s', ?_, h'⟩
    rw [after?, List.foldlM_cons, hperform]
    exact hrest

end LaysOut

theorem empty_laysOut : empty.LaysOut KeyLatch.empty where
  held := rfl
  live := rfl
  used := rfl

end KeySlots

/-- Whatever is asked of a new latch, it stands for the list of keys of which the same is asked,
    and its sixteen slots are enough: no access is out of range, and the slots in use hold that
    list.  What it tells of held and pending keys, and which key can be taken, is what the list
    says; bytes from sixteen on change nothing. -/
theorem latch_lists_keys (ops : List LatchOp) :
    let list := KeyList.empty.after ops
    let latch := KeyLatch.empty.after ops
    latch.toKeyList = list ∧ list.pending.Nodup ∧
    latch.take.map Prod.fst = list.pending.getLast? ∧
    (latch.hasPending = true ↔ list.pending ≠ []) ∧
    ∃ s, KeySlots.empty.after? ops = some s ∧
      (∀ key, s.held.has key = true ↔ key ∈ list.held) ∧
      s.live = list.pending.map Key.toByte ∧
      (∃ s', s.take = some (list.pending.getLast?.map Key.toByte, s')) ∧
      (list.pending = [] → latch.take = none ∧ s.take = some (none, s)) ∧
      (s.hasPending = true ↔ list.pending ≠ []) ∧
      (∀ byte : UInt8, 16 ≤ byte.toNat → s.press byte = some s ∧ s.release byte = s) ∧
      ∀ key : Key, ∃ s', s.forget key.toByte = some s' ∧ s'.used < 16 := by
  intro list latch
  have hlist : latch.toKeyList = list := by
    show (KeyLatch.empty.after ops).toKeyList = _
    rw [KeyLatch.toKeyList_after, KeyLatch.toKeyList_empty]
  have hpending : list.pending = latch.pending.reverse := by
    rw [← hlist]
    rfl
  have hempty : list.pending = [] ↔ latch.pending = [] := by
    rw [hpending, List.reverse_eq_nil_iff]
  have hlast : list.pending.getLast? = latch.pending.head? := by
    rw [hpending, List.getLast?_reverse]
  -- The slots follow the latch as the latch follows the list.
  obtain ⟨s, hs, h⟩ := KeySlots.empty_laysOut.after ops
  obtain ⟨s', htake, -⟩ := h.take
  refine ⟨hlist, ?_, ?_, ?_, s, hs, ?_, ?_, ⟨s', ?_⟩, ?_, ?_, ?_, ?_⟩
  · rw [hpending]
    exact List.nodup_reverse.2 latch.pending_nodup
  · rw [hlast, KeyLatch.map_fst_take]
  · rw [KeyLatch.hasPending_iff, Ne, Ne, hempty]
  · intro key
    rw [h.held, ← hlist]
    exact HeldKeys.mem_toFinset.symm
  · rw [h.live, hpending]
  · rw [htake, hlast]
  · intro hnone
    have hused : s.used = 0 := by
      rw [h.used, List.length_eq_zero_iff]
      exact hempty.1 hnone
    refine ⟨(KeyLatch.take_eq_none_iff _).2 (hempty.1 hnone), ?_⟩
    rw [KeySlots.take, hused]
  · rw [h.hasPending_iff, Ne, Ne, hempty]
  · intro byte hbyte
    have hnone : Key.ofByte? byte = none := dif_neg (Nat.not_lt.2 hbyte)
    rw [KeySlots.press, KeySlots.release, hnone]
    exact ⟨rfl, rfl⟩
  · intro key
    obtain ⟨s₁, hforget, h₁⟩ := h.forget key
    refine ⟨s₁, hforget, ?_⟩
    rw [h₁.used]
    exact latch.length_erase_pending_lt key

/-- Two keys go down, one of them twice, and both are taken: what is left in the slots is not
    taken again, and a byte that names no key is not put there. -/
theorem latch_lists_keys_of_presses :
    let ops := [.event (.press 3), .event (.poll ⟨HeldKeys.none, [5, 3]⟩), .take, .take]
    ((KeyList.empty.after ops).pending = [] ∧ 16 ≤ (200 : UInt8).toNat) ∧
      ∃ s, KeySlots.empty.after? ops = some s ∧ s.take = some (none, s) ∧
        s.press 200 = some s := by
  intro ops
  have hnone : (KeyList.empty.after ops).pending = [] := by decide
  have hbyte : 16 ≤ (200 : UInt8).toNat := by decide
  obtain ⟨-, -, -, -, s, hs, -, -, -, htake, -, hbytes, -⟩ := latch_lists_keys ops
  exact ⟨⟨hnone, hbyte⟩, s, hs, (htake hnone).2, (hbytes 200 hbyte).1⟩

end Chip8
