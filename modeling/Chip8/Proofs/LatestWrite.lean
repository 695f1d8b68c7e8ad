import Chip8.Memory.Access
import Chip8.Proofs.ExceptResult

/-!
# Memory holds what was written last

A byte of memory is the one that was put there by the latest operation that covered it and was not
refused, and until then it is a byte of the font or zero.  An operation is refused by two bounds in
the arithmetic of natural numbers, however long its operands are: it has to lie in memory, and
unless it is empty it may not begin inside the font.

## Key results

- `Memory.perform_of_fits`, `Memory.perform_of_not_fits`: what an operation does if there is room for
  its bytes, and that it does nothing if there is not
- `Memory.getElem_perform`: a byte after one operation
- `Memory.getElem_performAll`: a byte after any sequence of operations
- `Memory.holds_latest_write`: what can be fetched after it
-/

namespace Chip8

/-- What is asked of memory that changes it. -/
inductive MemoryOp where
  | load (image : List UInt8)
  | write (address : UInt64) (data : List UInt8)

namespace MemoryOp

/-- The first address that an operation stores to. -/
def first : MemoryOp → Nat
  | load _ => 0x200
  | write address _ => address.toNat

/-- The bytes that an operation stores. -/
def data : MemoryOp → List UInt8
  | load image => image
  | write _ data => data

/-- Whether there is room for the bytes: above the program base for an image, and above the font for
    other bytes.  No bytes at all have room anywhere in memory. -/
def Fits : MemoryOp → Prop
  | load image => image.length ≤ 3584
  | write address data =>
    address.toNat + data.length ≤ 4096 ∧ (data ≠ [] → 0x50 ≤ address.toNat)

instance : DecidablePred Fits
  | load _ => inferInstanceAs (Decidable (_ ≤ _))
  | write _ _ => inferInstanceAs (Decidable (_ ∧ _))

/-- Why an operation without room is refused. -/
def refusal : MemoryOp → Fault
  | load image => .load (.tooLarge image.length 3584)
  | write address data =>
    if address.toNat + data.length ≤ 4096 then .range (.readOnly address.toNat)
    else .range (.outOfBounds address.toNat data.length)

/-- The byte that an operation puts at the address `k`, if it has room and covers it. -/
def byteAt? (op : MemoryOp) (k : Nat) : Option UInt8 :=
  if op.Fits ∧ op.first ≤ k then op.data[k - op.first]? else none

/-- The byte that the latest of some operations to do so has put at the address `k`. -/
def latest? (ops : List MemoryOp) (k : Nat) : Option UInt8 := ops.reverse.findSome? (·.byteAt? k)

/-- What is at the address `k` of a new memory after some operations. -/
def byteAfter (ops : List MemoryOp) (k : Nat) : UInt8 :=
  (latest? ops k).getD (Memory.font.getD k 0)

theorem latest?_cons (op : MemoryOp) (ops : List MemoryOp) (k : Nat) :
    latest? (op :: ops) k = (latest? ops k).or (op.byteAt? k) := by
  simp only [latest?, List.reverse_cons, List.findSome?_append, List.findSome?_singleton]

end MemoryOp

namespace Memory

/-- An operation on memory: whether it is refused, and the memory that it leaves behind. -/
def perform (m : Memory) : MemoryOp → Except Fault Unit × Memory
  | .load image => ((m.install image).1.mapError .load, (m.install image).2)
  | .write address data => ((m.store address data).1.mapError .range, (m.store address data).2)

/-- The memory that operations leave behind one after the other. -/
def performAll (m : Memory) (ops : List MemoryOp) : Memory :=
  ops.foldl (fun m op => (m.perform op).2) m

/-! ## One operation -/

/-- An operation for which there is room stores its bytes. -/
theorem perform_of_fits (m : Memory) {op : MemoryOp} (h : op.Fits) :
    m.perform op = (.ok (), ⟨m.bytes.overwrite op.first op.data⟩) := by
  cases op with
  | load image =>
    have hfits : image.length ≤ programCapacity := h
    simp only [perform, install_eq, Memory.load, if_pos hfits, tried]
    rfl
  | write address data =>
    have hend : fontEnd = 0x50 := rfl
    obtain ⟨hin, hroom⟩ := h
    -- Bytes that are refused would have to begin in the font.
    have habove : ¬(data ≠ [] ∧ address.toNat < fontEnd) := fun hfont =>
      absurd (hroom hfont.1) (Nat.not_le.2 hfont.2)
    simp only [perform, store_eq, write, if_pos hin, if_neg habove, tried]
    rfl

/-- An operation for which there is no room is refused, and memory stays as it is. -/
theorem perform_of_not_fits (m : Memory) {op : MemoryOp} (h : ¬op.Fits) :
    m.perform op = (.error op.refusal, m) := by
  cases op with
  | load image =>
    have hlarge : ¬image.length ≤ programCapacity := h
    simp only [perform, install_eq, Memory.load, if_neg hlarge, tried]
    rfl
  | write address data =>
    simp only [perform, store_eq, write, MemoryOp.refusal]
    by_cases hin : address.toNat + data.length ≤ 4096
    · -- There is no room above the font, so the bytes were to begin inside of it.
      have hfont : data ≠ [] ∧ address.toNat < fontEnd := by
        by_contra hnot
        exact h ⟨hin, fun hdata => Nat.le_of_not_lt fun hlt => hnot ⟨hdata, hlt⟩⟩
      simp only [if_pos hin, if_pos hfont, tried]
      rfl
    · simp only [if_neg hin, tried]
      rfl

theorem perform_eq_ok_iff (m : Memory) (op : MemoryOp) : (m.perform op).1 = .ok () ↔ op.Fits := by
  by_cases h : op.Fits
  · simp only [perform_of_fits m h, h]
  · simp only [perform_of_not_fits m h, h, reduceCtorEq]

/-- After an operation a byte is the one that the operation put there, or as it was. -/
theorem getElem_perform (m : Memory) (op : MemoryOp) {k : Nat} (hk : k < 4096) :
    (m.perform op).2.bytes[k] = (op.byteAt? k).getD m.bytes[k] := by
  rw [MemoryOp.byteAt?]
  by_cases hfits : op.Fits
  · -- The address is covered, or lies behind the last byte, or in front of the first one.
    rw [perform_of_fits m hfits, Vector.getElem_overwrite _ _ _ hk]
    by_cases hfirst : op.first ≤ k
    · rw [if_pos ⟨hfits, hfirst⟩]
      by_cases hlast : k - op.first < op.data.length
      · rw [dif_pos ⟨hfirst, hlast⟩, List.getElem?_eq_getElem hlast, Option.getD_some]
      · rw [dif_neg fun h => hlast h.2, List.getElem?_eq_none (Nat.le_of_not_lt hlast),
          Option.getD_none]
    · rw [dif_neg fun h => hfirst h.1, if_neg fun h => hfirst h.2, Option.getD_none]
  · rw [perform_of_not_fits m hfits, if_neg fun h => hfits h.1, Option.getD_none]

/-! ## Any number of operations -/

theorem getElem_performAll (m : Memory) (ops : List MemoryOp) {k : Nat} (hk : k < 4096) :
    (m.performAll ops).bytes[k] = (MemoryOp.latest? ops k).getD m.bytes[k] := by
  induction ops generalizing m with
  | nil => rfl
  | cons op ops ih =>
    show ((m.perform op).2.performAll ops).bytes[k] = _
    -- The later operations come first in the search for the latest one, and this one after them.
    rw [ih, getElem_perform, MemoryOp.latest?_cons]
    cases MemoryOp.latest? ops k <;> rfl

/-- A window of a new memory after some operations. -/
theorem window_performAll_initial (ops : List MemoryOp) {start length : Nat}
    (h : start + length ≤ 4096) :
    (initial.performAll ops).bytes.window start length h =
      (List.range' start length).map (MemoryOp.byteAfter ops) := by
  apply List.ext_getElem
  · simp
  · intro k hk hk'
    -- Byte for byte, it is what is left of the font after the operations.
    have hlt : k < length := by simpa using hk
    simp only [Vector.window, List.getElem_ofFn, List.getElem_map, List.getElem_range', Nat.one_mul]
    rw [getElem_performAll _ _ (by omega), getElem_initial_eq_getD (by omega)]
    rfl

/-- After any operations on a new memory an access succeeds exactly if it lies in memory, and then it
    finds for each address the byte that the latest operation to have covered it with room for its
    bytes has put there, and elsewhere the font and zeros.  An operation succeeds exactly if there is
    room for its bytes, and one that does not succeed leaves memory as it is. -/
theorem holds_latest_write (ops : List MemoryOp) :
    let m := initial.performAll ops
    (∀ address length : UInt64,
      m.fetch address length =
        if address.toNat + length.toNat ≤ 4096 then
          .ok ((List.range' address.toNat length.toNat).map (MemoryOp.byteAfter ops))
        else .error (.outOfBounds address.toNat length.toNat)) ∧
    (∀ address data,
      (m.store address data).1 = .ok () ↔
        address.toNat + data.length ≤ 4096 ∧ (data ≠ [] → 0x50 ≤ address.toNat)) ∧
    (∀ image, (m.install image).1 = .ok () ↔ image.length ≤ 3584) ∧
    ∀ op, (m.perform op).1 ≠ .ok () → (m.perform op).2 = m := by
  intro m
  refine ⟨fun address length => ?_, fun address data => ?_, fun image => ?_, fun op hop => ?_⟩
  · -- The bound is the same in both, a sum that does not wrap.
    rw [fetch_eq_slice, slice]
    by_cases h : address.toNat + length.toNat ≤ 4096
    · rw [dif_pos h, if_pos h, window_performAll_initial]
    · rw [dif_neg h, if_neg h]
  · rw [← Except.mapError_eq_ok_iff]
    exact perform_eq_ok_iff m (.write address data)
  · rw [← Except.mapError_eq_ok_iff]
    exact perform_eq_ok_iff m (.load image)
  · rw [perform_of_not_fits m fun hfits => hop ((perform_eq_ok_iff m op).2 hfits)]

/-- A byte of an image is written over.  Bytes that would begin in the font are refused, and so are
    bytes that would end behind the largest address; neither leaves anything behind. -/
theorem holds_latest_write_of_overlap :
    let ops : List MemoryOp :=
      [.load [1, 2, 3], .write 0x201 [7], .write 0x4F [9, 9], .write 0xFFFFFFFFFFFFFFFF [5, 5]]
    let m := initial.performAll ops
    let op : MemoryOp := .write 0xFFE [8, 8, 8]
    m.fetch 0x1FF 4 = .ok [0, 1, 7, 3] ∧ m.fetch 0x4E 3 = .ok [0x80, 0x80, 0] ∧
      m.fetch 0xFFFFFFFFFFFFFFFF 2 = .error (.outOfBounds 0xFFFFFFFFFFFFFFFF 2) ∧
      (m.perform op).1 ≠ .ok () ∧ (m.perform op).2 = m := by
  intro ops m op
  obtain ⟨hfetch, -, -, hsame⟩ := holds_latest_write ops
  have hrefused : (m.perform op).1 ≠ .ok () := fun h => absurd ((perform_eq_ok_iff m op).1 h) (by decide)
  refine ⟨?_, ?_, ?_, hrefused, hsame op hrefused⟩
  · rw [hfetch]
    decide
  · rw [hfetch]
    decide
  · rw [hfetch]
    decide

end Memory

end Chip8
