/-! # Key latch

The keypad has sixteen keys.  A `KeyLatch` knows which of them are held, and which
went down and have not been delivered to a program yet.  The pending keys are kept
newest first and each at most once, because a key wait is answered with the key
whose press is the most recent.

Keys arrive as bytes; those above fifteen name no key and are ignored. -/

namespace Chip8

/-- A key of the keypad. -/
abbrev Key : Type := Fin 16

namespace Key

/-- How many keys there are. -/
def count : Nat := 16

/-- The key that a byte names, if it names one. -/
def ofByte? (byte : UInt8) : Option Key :=
  if h : byte.toNat < 16 then some ⟨byte.toNat, h⟩ else none

/-- The byte that stands for a key. -/
def toByte (key : Key) : UInt8 := UInt8.ofNat key.val

theorem toNat_toByte (key : Key) : key.toByte.toNat = key.val := by
  simp only [toByte, UInt8.toNat_ofNat']
  omega

@[simp] theorem ofByte?_toByte (key : Key) : ofByte? key.toByte = some key := by
  simp [ofByte?, toNat_toByte]

theorem toByte_of_ofByte? {byte : UInt8} {key : Key} (h : ofByte? byte = some key) :
    key.toByte = byte := by
  unfold ofByte? at h
  split at h
  · cases h
    apply UInt8.toNat_inj.1
    rw [toNat_toByte]
  · cases h

theorem toByte_injective : Function.Injective toByte := by
  intro key key' h
  rw [← Option.some_inj, ← ofByte?_toByte key, h, ofByte?_toByte]

end Key

/-- Which keys are down, by key. -/
abbrev HeldKeys : Type := Vector Bool 16

/-- No key is down. -/
def HeldKeys.none : HeldKeys := Vector.replicate 16 false

/-- Whether a key is down. -/
def HeldKeys.has (held : HeldKeys) (key : Key) : Bool := held[key]

/-- The keys that are down once one of them went down or up. -/
def HeldKeys.put (held : HeldKeys) (key : Key) (down : Bool) : HeldKeys := held.set key down

/-- The keys that are down, in ascending order. -/
def HeldKeys.toList (held : HeldKeys) : List Key :=
  (List.finRange 16).filter held.has

/-- The set of the keys that the bytes of a list name. -/
def HeldKeys.ofList (bytes : List UInt8) : HeldKeys :=
  Vector.ofFn fun key => bytes.contains (Key.toByte key)

/-- What the keypad reports when it is polled: the keys that are down now, and those
    that went down since the last poll, oldest first. -/
structure KeyPoll where
  held : HeldKeys
  pressed : List UInt8

/-- Held keys, and presses that no program has consumed. -/
structure KeyLatch where
  held : HeldKeys
  /-- Newest first. -/
  pending : List Key
  pending_nodup : pending.Nodup := by simp
  deriving DecidableEq

namespace KeyLatch

/-- No key is held and none is pending. -/
def empty : KeyLatch := { held := HeldKeys.none, pending := [] }

/-- Latch a key going down: it is held, and it is the newest pending key. -/
def press (l : KeyLatch) (byte : UInt8) : KeyLatch :=
  match Key.ofByte? byte with
  | none => l
  | some key =>
    { held := l.held.put key true
      pending := key :: l.pending.erase key
      pending_nodup := List.nodup_cons.2
        ⟨l.pending_nodup.not_mem_erase, l.pending_nodup.erase key⟩ }

/-- A key goes up.  A press of it that is pending stays pending. -/
def release (l : KeyLatch) (byte : UInt8) : KeyLatch :=
  match Key.ofByte? byte with
  | none => l
  | some key => { l with held := l.held.put key false }

/-- Take in a poll: latch the presses in order, then replace the held keys. -/
def update (l : KeyLatch) (poll : KeyPoll) : KeyLatch :=
  { poll.pressed.foldl press l with held := poll.held }

/-- Whether a byte names a key that is held. -/
def isHeld (l : KeyLatch) (byte : UInt8) : Bool :=
  match Key.ofByte? byte with
  | none => false
  | some key => l.held.has key

/-- Whether a press is waiting to be consumed. -/
def hasPending (l : KeyLatch) : Bool := !l.pending.isEmpty

/-- Consume the newest pending key, if there is one. -/
def take : KeyLatch → Option (Key × KeyLatch)
  | { pending := [], .. } => none
  | { held, pending := key :: rest, pending_nodup } =>
    some (key, { held, pending := rest, pending_nodup := (List.nodup_cons.1 pending_nodup).2 })

@[ext] theorem ext {l l' : KeyLatch} (held : l.held = l'.held) (pending : l.pending = l'.pending) :
    l = l' := by
  cases l; cases l'; cases held; cases pending; rfl

@[simp] theorem pending_press_toByte (l : KeyLatch) (key : Key) :
    (l.press key.toByte).pending = key :: l.pending.erase key := by
  simp [press]

@[simp] theorem pending_release (l : KeyLatch) (byte : UInt8) :
    (l.release byte).pending = l.pending := by
  unfold release
  split <;> rfl

@[simp] theorem pending_update (l : KeyLatch) (poll : KeyPoll) :
    (l.update poll).pending = (poll.pressed.foldl press l).pending := rfl

theorem take_eq_none_iff (l : KeyLatch) : l.take = none ↔ l.pending = [] := by
  match l with
  | { pending := [], .. } => simp [take]
  | { pending := _ :: _, .. } => simp [take]

theorem pending_of_take {l l' : KeyLatch} {key : Key} (h : l.take = some (key, l')) :
    l.pending = key :: l'.pending ∧ l'.held = l.held := by
  match l, h with
  | { pending := _ :: _, .. }, h => cases h; exact ⟨rfl, rfl⟩

end KeyLatch

end Chip8
