import Chip8.Register

/-! # Words

An instruction is one word of two bytes, the high byte first.  Its fields overlap:

    f x y n      four nibbles: the family, two registers, a small literal
    f x kk       the low byte as one literal
    f addr       the low twelve bits as an address

A word is taken apart by `family`, `x`, `y`, `n`, `kk` and `addr`, and put together
by `ofNibbles`, `ofByte` and `ofAddress`.  The lemmas below say that each of them
puts every field where the first group finds it. -/

namespace Chip8

/-- Two bytes of program. -/
abbrev Word : Type := UInt16

namespace Word

/-- The word stored as two bytes, the high one first. -/
def ofBytes (high low : UInt8) : Word := UInt16.ofNat (256 * high.toNat + low.toNat)

/-- The high byte. -/
def high (w : Word) : UInt8 := UInt8.ofNat (w.toNat / 256)

/-- The low byte, a literal in many instructions. -/
def kk (w : Word) : UInt8 := UInt8.ofNat (w.toNat % 256)

/-- The highest nibble, which selects the family of the instruction. -/
def family (w : Word) : Fin 16 := ⟨w.toNat / 4096, by have := w.toNat_lt; omega⟩

/-- The second nibble, which names a register. -/
def x (w : Word) : Register := ⟨w.toNat / 256 % 16, by omega⟩

/-- The third nibble, which names a register. -/
def y (w : Word) : Register := ⟨w.toNat / 16 % 16, by omega⟩

/-- The lowest nibble. -/
def n (w : Word) : Fin 16 := ⟨w.toNat % 16, by omega⟩

/-- The low twelve bits, an address. -/
def addr (w : Word) : UInt16 := UInt16.ofNat (w.toNat % 4096)

/-- The bytes of a word as they are stored. -/
def toBytes (w : Word) : List UInt8 := [w.high, w.kk]

/-- A word from its four nibbles. -/
def ofNibbles (family x y n : Fin 16) : Word :=
  UInt16.ofNat (4096 * family.val + 256 * x.val + 16 * y.val + n.val)

/-- A word from two nibbles and the low byte. -/
def ofByte (family x : Fin 16) (kk : UInt8) : Word :=
  UInt16.ofNat (4096 * family.val + 256 * x.val + kk.toNat)

/-- A word from its family and the low twelve bits of an address. -/
def ofAddress (family : Fin 16) (addr : UInt16) : Word :=
  UInt16.ofNat (4096 * family.val + addr.toNat % 4096)

/-! ## Fields of a word that was put together -/

theorem toNat_ofNibbles (f x y n : Fin 16) :
    (ofNibbles f x y n).toNat = 4096 * f.val + 256 * x.val + 16 * y.val + n.val := by
  simp only [ofNibbles, UInt16.toNat_ofNat']
  omega

theorem toNat_ofByte (f x : Fin 16) (kk : UInt8) :
    (ofByte f x kk).toNat = 4096 * f.val + 256 * x.val + kk.toNat := by
  have := kk.toNat_lt
  simp only [ofByte, UInt16.toNat_ofNat']
  omega

theorem toNat_ofAddress (f : Fin 16) (a : UInt16) :
    (ofAddress f a).toNat = 4096 * f.val + a.toNat % 4096 := by
  simp only [ofAddress, UInt16.toNat_ofNat']
  omega

theorem toNat_ofBytes (high low : UInt8) :
    (ofBytes high low).toNat = 256 * high.toNat + low.toNat := by
  have := high.toNat_lt
  have := low.toNat_lt
  simp only [ofBytes, UInt16.toNat_ofNat']
  omega

@[simp] theorem family_ofNibbles (f x y n : Fin 16) : (ofNibbles f x y n).family = f := by
  ext; simp only [family, toNat_ofNibbles]; omega

@[simp] theorem x_ofNibbles (f x y n : Fin 16) : (ofNibbles f x y n).x = x := by
  ext; simp only [Word.x, toNat_ofNibbles]; omega

@[simp] theorem y_ofNibbles (f x y n : Fin 16) : (ofNibbles f x y n).y = y := by
  ext; simp only [Word.y, toNat_ofNibbles]; omega

@[simp] theorem n_ofNibbles (f x y n : Fin 16) : (ofNibbles f x y n).n = n := by
  ext; simp only [Word.n, toNat_ofNibbles]; omega

@[simp] theorem family_ofByte (f x : Fin 16) (kk : UInt8) : (ofByte f x kk).family = f := by
  have := kk.toNat_lt
  ext; simp only [family, toNat_ofByte]; omega

@[simp] theorem x_ofByte (f x : Fin 16) (kk : UInt8) : (ofByte f x kk).x = x := by
  have := kk.toNat_lt
  ext; simp only [Word.x, toNat_ofByte]; omega

@[simp] theorem kk_ofByte (f x : Fin 16) (kk : UInt8) : (ofByte f x kk).kk = kk := by
  have := kk.toNat_lt
  apply UInt8.toNat_inj.1
  simp only [Word.kk, toNat_ofByte, UInt8.toNat_ofNat']
  omega

@[simp] theorem family_ofAddress (f : Fin 16) (a : UInt16) : (ofAddress f a).family = f := by
  ext; simp only [family, toNat_ofAddress]; omega

@[simp] theorem addr_ofAddress (f : Fin 16) (a : UInt16) :
    (ofAddress f a).addr = UInt16.ofNat (a.toNat % 4096) := by
  apply UInt16.toNat_inj.1
  simp only [addr, toNat_ofAddress, UInt16.toNat_ofNat']
  omega

@[simp] theorem ofBytes_high_kk (w : Word) : ofBytes w.high w.kk = w := by
  have := w.toNat_lt
  apply UInt16.toNat_inj.1
  simp only [toNat_ofBytes, high, kk, UInt8.toNat_ofNat']
  omega

@[simp] theorem high_ofBytes (high low : UInt8) : (ofBytes high low).high = high := by
  have := high.toNat_lt
  have := low.toNat_lt
  apply UInt8.toNat_inj.1
  simp only [Word.high, toNat_ofBytes, UInt8.toNat_ofNat']
  omega

@[simp] theorem kk_ofBytes (high low : UInt8) : (ofBytes high low).kk = low := by
  have := low.toNat_lt
  apply UInt8.toNat_inj.1
  simp only [Word.kk, toNat_ofBytes, UInt8.toNat_ofNat']
  omega

end Word

end Chip8
